import CodeGraph.Proofs.ValueCalls

/-!
# The record of nodes that stand for values

Record and nodes tell the same: a node is on record for what it stands for, and for nothing else
(`Filed`). This holds of values and of types alike, as both are filed by what a view shows of them.
Main statements: `asked_perform`, what asking for a node does, and `inStep_after`, that record and
nodes are in step after every history whose operations spare what nodes stand for.
-/

set_option autoImplicit false

namespace CodeGraph

namespace Graph

variable {g h m : Graph} {key : SingletonKey} {n : Node}

/-! ## Record and nodes -/

/-- How nodes of one sort are put on record. -/
structure Filing (α : Type) where
  /-- What a node of this sort shows. -/
  view : Node → Option α
  /-- The key under which nodes that show it are on record. -/
  key? : TextTable → α → Option SingletonKey
  /-- Which keys are for nodes of this sort. -/
  covers : SingletonKey → Bool

def isTypeKey : SingletonKey → Bool
  | .type _ => true
  | _ => false

/-- The nodes that stand for values, types apart. -/
def values : Filing SingletonKey :=
  ⟨GraphFile.singletonKey?, fun _ key => some key, fun key => !isTypeKey key⟩

def types : Filing (List NodeId) :=
  ⟨typeFormers?, fun t formers => (t.keyOf? (typeText formers)).map .type, isTypeKey⟩

namespace Filing

variable {α : Type}

/-- A node on record under a key of its sort shows what the key is for, and nodes on record under
other keys show nothing. -/
def Fits (c : Filing α) (t : TextTable) (key : SingletonKey) (n : Node) : Prop :=
  if c.covers key then ∃ a, c.view n = some a ∧ c.key? t a = some key else c.view n = none

/-- A node that shows what the key is for fits a key of its sort. -/
theorem fits_of_covers {c : Filing α} {t : TextTable} {a : α} (covers : c.covers key = true)
    (shows : c.view n = some a) (named : c.key? t a = some key) : c.Fits t key n := by
  unfold Fits
  rw [if_pos covers]
  exact ⟨a, shows, named⟩

/-- A node that shows nothing fits a key of another sort. -/
theorem fits_of_other {c : Filing α} {t : TextTable} (other : c.covers key = false)
    (nothing : c.view n = none) : c.Fits t key n := by
  unfold Fits
  rw [if_neg (other ▸ Bool.false_ne_true)]
  exact nothing

/-- Keys last as long as texts keep theirs. -/
def Lasting (c : Filing α) : Prop :=
  ∀ t t' : TextTable, (∀ s key, t.keyOf? s = some key → t'.keyOf? s = some key) →
    ∀ a key, c.key? t a = some key → c.key? t' a = some key

/-- The keys of values do not depend on the texts. -/
theorem lasting_values : values.Lasting :=
  fun _ _ _ _ _ same => same

/-- The keys of types last as long as the texts of their formers keep theirs. -/
theorem lasting_types : types.Lasting := by
  intro t t' keep formers key same
  obtain ⟨text, known, rfl⟩ := Option.map_eq_some_iff.1 same
  exact Option.map_eq_some_iff.2 ⟨text, keep _ _ known, rfl⟩

end Filing

/-- Record and nodes tell the same. -/
structure Filed {α : Type} (c : Filing α) (g : Graph) : Prop where
  known : ∀ id a, g.shown c.view id = some a →
    ∃ key, c.key? g.texts a = some key ∧ c.covers key = true
  filed : ∀ key id, c.covers key = true → (g.singleton? key = some id ↔
    ∃ a, g.shown c.view id = some a ∧ c.key? g.texts a = some key)

namespace Filed

variable {α : Type} {c : Filing α}

/-- An empty graph has neither nodes nor a record. -/
theorem empty (language : Language) (filterOn : Bool) : Filed c (empty language filterOn) where
  known id a shows := by cases shows
  filed key id covers := by
    constructor
    · intro known
      cases known
    · rintro ⟨a, shows, -⟩
      cases shows

/-- The key of what a node shows does not change while texts keep theirs. -/
theorem key?_eq (filed : Filed c g) (lasting : c.Lasting) {t : TextTable}
    (keep : ∀ s key, g.texts.keyOf? s = some key → t.keyOf? s = some key) {id : NodeId} {a : α}
    (shows : g.shown c.view id = some a) : c.key? t a = c.key? g.texts a := by
  obtain ⟨key, named, -⟩ := filed.known id a shows
  rw [named]
  exact lasting _ _ keep a key named

/-- Record and nodes go on telling the same if neither they nor the keys of texts change. -/
theorem keeps (filed : Filed c g) (lasting : c.Lasting) (keeps : KeepsView c.view g h)
    (keep : ∀ s key, g.texts.keyOf? s = some key → h.texts.keyOf? s = some key)
    (room : h.size < idLimit) : Filed c h where
  known id a shows := by
    rw [keeps.shown room] at shows
    rw [filed.key?_eq lasting keep shows]
    exact filed.known id a shows
  filed key id covers := by
    have record : h.singleton? key = g.singleton? key := by
      unfold singleton?
      rw [keeps.singletons]
    rw [record, filed.filed key id covers, keeps.shown room]
    refine exists_congr fun a => and_congr_right fun shows => ?_
    rw [filed.key?_eq lasting keep shows]

/-- Record and nodes go on telling the same when a node that fits its key is made and put on record.
-/
theorem makes (filed : Filed c g) (makes : g.Makes key n h) (fits : c.Fits g.texts key n) :
    Filed c h where
  known id a shows := by
    rw [makes.shown] at shows
    rw [makes.texts]
    unfold Filing.Fits at fits
    split at shows
    · split at fits
      · next covers =>
        obtain ⟨b, view, named⟩ := fits
        cases shows.symm.trans view
        exact ⟨key, named, covers⟩
      · rw [fits] at shows
        cases shows
    · exact filed.known id a shows
  filed key' id covers' := by
    have old := filed.filed key' id covers'
    have unseen : g.shown c.view n.id = none := by
      unfold shown
      rw [makes.hole]
      rfl
    rw [makes.singleton?, makes.shown, makes.texts]
    unfold Filing.Fits at fits
    by_cases same : key = key'
    · subst same
      rw [if_pos covers'] at fits
      rw [if_pos rfl, Option.some_inj]
      constructor
      · rintro rfl
        rw [if_pos rfl]
        exact fits
      · rintro ⟨a, shows, named⟩
        by_contra other
        rw [if_neg (Ne.symm other)] at shows
        have known := old.2 ⟨a, shows, named⟩
        rw [makes.new] at known
        cases known
    · rw [if_neg same, old]
      refine exists_congr fun a => ?_
      by_cases here : id = n.id
      · -- the new node is on record under its own key only
        rw [here, if_pos rfl, unseen]
        constructor
        · rintro ⟨shows, -⟩
          cases shows
        · rintro ⟨shows, named⟩
          split at fits
          · obtain ⟨b, view, own⟩ := fits
            cases shows.symm.trans view
            exact absurd (Option.some.inj (own.symm.trans named)) same
          · rw [fits] at shows
            cases shows
      · rw [if_neg here]

end Filed

/-- A node is on record for the value that it stands for. -/
theorem Filed.record_iff (filed : Filed values g) (covers : values.covers key = true) (id : NodeId) :
    g.singleton? key = some id ↔ g.shown GraphFile.singletonKey? id = some key := by
  rw [filed.filed key id covers]
  constructor
  · rintro ⟨_, shows, same⟩
    cases same
    exact shows
  · exact fun shows => ⟨key, shows, rfl⟩

/-! ## Asking for nodes -/

/-- Only texts are added. -/
structure AddsTexts (g m : Graph) : Prop where
  nodes : m.nodes = g.nodes
  singletons : m.singletons = g.singletons
  texts : g.texts.Interns m.texts

/-- Adding no texts is adding texts only. -/
theorem addsTexts_refl (g : Graph) : g.AddsTexts g :=
  ⟨rfl, rfl, .refl⟩

/-- Interning adds a text at most. -/
theorem addsTexts_intern (g : Graph) (s : String) : g.AddsTexts (g.intern s).2 :=
  ⟨rfl, rfl, g.texts.interns_intern s⟩

/-- Texts may be added twice. -/
theorem AddsTexts.trans (first : g.AddsTexts m) (second : m.AddsTexts h) : g.AddsTexts h :=
  ⟨second.nodes.trans first.nodes, second.singletons.trans first.singletons,
    first.texts.trans second.texts⟩

/-- Adding texts keeps what nodes show. -/
theorem AddsTexts.keepsView {α : Type} (adds : g.AddsTexts m) (view : Node → Option α) :
    KeepsView view g m := by
  refine ⟨adds.singletons, adds.texts, Nat.le_of_eq ?_, fun _ id => ?_⟩
  · exact (congrArg NodeTable.size adds.nodes).symm
  · unfold shown find?
    rw [adds.nodes]

/-- A key and a node that is on record under it. -/
def Belongs (t : TextTable) (key : SingletonKey) (n : Node) : Prop :=
  values.Fits t key n ∧ types.Fits t key n

/-- The node that was asked for is on record, or is made. -/
inductive Asked (g : Graph) : Graph → Prop
  | known {m : Graph} (adds : g.AddsTexts m) : Asked g m
  | made {m h : Graph} {key : SingletonKey} {n : Node} (adds : g.AddsTexts m)
    (makes : m.Makes key n h) (belongs : Belongs m.texts key n) : Asked g h

/-- Asking for a node after adding texts is asking for it. -/
theorem Asked.after (asked : m.Asked h) (adds : g.AddsTexts m) : g.Asked h := by
  cases asked with
  | known more => exact .known (adds.trans more)
  | made more makes belongs => exact .made (adds.trans more) makes belongs

/-- A node that tells its value, and is no type, belongs to the key of that value. -/
theorem belongs_value {t : TextTable} (value : isTypeKey key = false)
    (told : GraphFile.singletonKey? n = some key) (kind : n.kind ≠ .type) : Belongs t key n := by
  have covers : values.covers key = true := by
    change (!isTypeKey key) = true
    rw [value]
    rfl
  exact ⟨Filing.fits_of_covers covers told rfl, Filing.fits_of_other value (typeFormers?_eq_none kind)⟩

/-- A node that refers to what the key is for belongs to that key. -/
theorem belongs_reference {t : TextTable} (value : isTypeKey key = false)
    (attributes : n.attributes = .ofKind n.kind) (kind : n.kind ∈ referenceKinds)
    (stands : n.StandsFor key) : Belongs t key n := by
  have suits : Attributes.Suits n.kind n.attributes := attributes ▸ .refl _
  refine belongs_value value ((GraphFile.singletonKey?_eq_some_iff suits key).2 stands) ?_
  intro is
  have other : NodeKind.type ∉ referenceKinds := by decide
  exact other (is ▸ kind)

/-- A type belongs to the key of the text of its formers. -/
theorem belongs_type {t : TextTable} {formers : List NodeId} {text : TextKey}
    (kind : n.kind = .type) (attributes : n.attributes = .ofKind .type)
    (made : typeFormers? n = some formers) (known : t.keyOf? (typeText formers) = some text) :
    Belongs t (.type text) n := by
  have nothing : GraphFile.singletonKey? n = none := by
    have other : n.kind ∉ GraphFile.valueKinds := by
      rw [kind]
      decide
    rw [GraphFile.singletonKey?_eq, attributes, GraphFile.kindKey?_eq_none other]
    rfl
  exact ⟨Filing.fits_of_other rfl nothing,
    Filing.fits_of_covers rfl made (Option.map_eq_some_iff.2 ⟨text, known, rfl⟩)⟩

/-- Asking for the node of a value gives one on record or makes one. -/
theorem asked_singletonNode (room : g.size < idLimit) {kind : NodeKind} {f : Node → Node}
    (own : ∀ n, (f n).id = n.id) (same : ∀ n, (f n).kind = n.kind) (other : kind ≠ .type)
    (value : isTypeKey key = false)
    (told : GraphFile.singletonKey? (f (.fresh g.nextId kind)) = some key) :
    g.Asked (g.singletonNode key kind f).2 := by
  cases known : g.singleton? key with
  | some id =>
    rw [singletonNode_of_known known]
    exact .known (addsTexts_refl g)
  | none =>
    exact .made (addsTexts_refl g) (makes_singletonNode room known kind own).1
      (belongs_value value told ((same _).trans_ne other))

/-- Asking for a reference gives one on record or makes one, unless it is refused and changes
nothing. -/
theorem asked_referenceNode {kind : NodeKind} {e : EdgeKind} {target : Option NodeId}
    {check : Except Error Unit} (room : g.size < idLimit) (single : e.isSingle = true)
    (has : e ∈ kind.edgeKinds) (value : isTypeKey key = false) (refers : kind ∈ referenceKinds)
    (fails : ∀ {cause h}, g.referenceNode key kind e target check = (.error cause, h) → h = g)
    (stands : ∀ n : Node, n.kind = kind → n.single? e = target → n.StandsFor key) :
    g.Asked (g.referenceNode key kind e target check).2 := by
  rcases made : g.referenceNode key kind e target check with ⟨cause | id, h⟩
  · rw [fails made]
    exact .known (addsTexts_refl g)
  · rcases referenceNode_eq_ok single has room made with
      ⟨-, rfl⟩ | ⟨n, makes, -, is, attributes, points⟩
    · exact .known (addsTexts_refl _)
    · exact .made (addsTexts_refl g) makes
        (belongs_reference value (is ▸ attributes) (is ▸ refers) (stands n is points))

/-- Building a type gives one on record or makes one. -/
theorem asked_buildType (room : g.size < idLimit) (stack : List NodeId) :
    g.Asked (g.buildType stack).2 := by
  rcases built : g.buildType stack with ⟨cause | id, h⟩
  · rw [buildType_eq_error room built]
    exact .known (addsTexts_refl g)
  · rcases buildType_eq_ok room built with ⟨-, rfl⟩ | ⟨n, makes, -, kind, attributes, made⟩
    · exact .known (addsTexts_intern g _)
    · exact .made (addsTexts_intern g _) makes
        (belongs_type kind attributes made (g.texts.keyOf?_intern_self _))

/-- An operation that asks for a value or a type gives a node on record or makes one. -/
theorem asked_perform (room : g.size < idLimit) {operation : Operation}
    (asks : operation.asksForValue = true ∨ operation.asksForType = true) :
    g.Asked (operation.perform g).2 := by
  have interned : ∀ s, (g.intern s).2.size < idLimit := fun _ => room
  cases operation with
  | simpleType kind =>
    exact asked_singletonNode room (fun _ => rfl) (fun _ => rfl) (by decide) rfl rfl
  | pointerFormer kind =>
    exact asked_singletonNode room (fun _ => rfl) (fun _ => rfl) (by decide) rfl rfl
  | arrayFormer => exact asked_singletonNode room (fun _ => rfl) (fun _ => rfl) (by decide) rfl rfl
  | nonTypeFormer => exact asked_singletonNode room (fun _ => rfl) (fun _ => rfl) (by decide) rfl rfl
  | comment text =>
    have asked : (g.intern text).2.Asked ((g.intern text).2.singletonNode
        (.comment (g.intern text).1) .comment fun n =>
          { n with attributes := .comment (g.intern text).1 }).2 :=
      asked_singletonNode (interned text) (fun _ => rfl) (fun _ => rfl) (by decide) rfl rfl
    exact asked.after (addsTexts_intern g text)
  | component name =>
    have asked : (g.intern name).2.Asked ((g.intern name).2.singletonNode
        (.component (g.intern name).1) .component fun n => n.setName (g.intern name).1).2 :=
      asked_singletonNode (interned name) (fun n => n.id_setName _) (fun n => n.kind_setName _) (by decide) rfl
        rfl
    exact asked.after (addsTexts_intern g name)
  | typeReference refersTo =>
    exact asked_referenceNode room rfl (by decide) rfl (by decide) (typeReference_eq_error room)
      fun n is points => ⟨is, points⟩
  | attributeAccess accessed =>
    exact asked_referenceNode room rfl (by decide) rfl (by decide) (attributeAccess_eq_error room)
      fun n is points => ⟨is, points⟩
  | methodCall method =>
    exact asked_referenceNode room rfl (by decide) rfl (by decide) (methodCall_eq_error room)
      fun n is points => ⟨is, points⟩
  | buildType stack => exact asked_buildType room stack
  | _ => rcases asks with asks | asks <;> cases asks

/-! ## Histories -/

/-- One graph comes from another one by additions to its texts and to what is on record. -/
structure Extends (g h : Graph) : Prop where
  texts : g.texts.Interns h.texts
  record : ∀ key id, g.singleton? key = some id → h.singleton? key = some id

/-- Additions may be made twice. -/
theorem Extends.trans (first : g.Extends m) (second : m.Extends h) : g.Extends h :=
  ⟨first.texts.trans second.texts,
    fun key id known => second.record key id (first.record key id known)⟩

/-- Changes that keep what nodes show only add. -/
theorem KeepsView.extended {α : Type} {view : Node → Option α} (keeps : KeepsView view g h) :
    g.Extends h := by
  refine ⟨keeps.texts, fun key id known => ?_⟩
  unfold singleton?
  rw [keeps.singletons]
  exact known

/-- Making a node only adds to the record. -/
theorem Makes.extended (makes : g.Makes key n h) : g.Extends h := by
  refine ⟨makes.texts ▸ .refl, fun other id known => ?_⟩
  rw [makes.singleton?, if_neg]
  · exact known
  · rintro rfl
    rw [makes.new] at known
    cases known

/-- Adding texts only adds. -/
theorem AddsTexts.extended (adds : g.AddsTexts m) : g.Extends m :=
  (adds.keepsView (fun _ => (none : Option Unit))).extended

/-- Asking for a node only adds. -/
theorem Asked.extended (asked : g.Asked h) : g.Extends h := by
  cases asked with
  | known adds => exact adds.extended
  | made adds makes belongs => exact adds.extended.trans makes.extended

section Record

variable {operation : Operation} {history : List Operation}

/-- What every edit with suitable attributes keeps, an operation that keeps the record keeps. -/
theorem keepsRecord_preserves {P : Graph → Prop}
    (edits : ∀ g h, Edit Attributes.Suits g h → P g → P h)
    (keeps : operation.KeepsRecord g) (start : P g) : P (operation.perform g).2 :=
  (edits_perform (fun _ _ suits => suits) g operation keeps.isEdit keeps.describes).preserves
    edits start

/-- An operation that keeps the record never makes a graph smaller. -/
theorem size_le_perform (keeps : operation.KeepsRecord g) :
    g.size ≤ (operation.perform g).2.size :=
  size_le_of_isEdit keeps.isEdit

/-- A history that keeps the record never makes a graph smaller. -/
theorem Along.size_le (along : g.Along Operation.KeepsRecord history) :
    g.size ≤ (g.after history).size :=
  along.size_le_of_isEdit fun _ _ keeps => keeps.isEdit

/-- An operation asks for a node that stands for something, or is not seen. -/
theorem asked_or_keepsView {α : Type} {view : Node → Option α} {fixed : List NodeKind}
    (law : IsView fixed view) (keeps : operation.KeepsRecord g) (unseen : operation.Unseen view g)
    (room : g.size < idLimit) :
    g.Asked (operation.perform g).2 ∨ KeepsView view g (operation.perform g).2 := by
  by_cases asks : operation.asksForValue = true ∨ operation.asksForType = true
  · exact Or.inl (asked_perform room asks)
  · rw [not_or, Bool.not_eq_true, Bool.not_eq_true] at asks
    exact Or.inr (keepsView_perform law keeps unseen asks.1 asks.2)

/-- Showing nothing depends on nothing. -/
theorem isView_nothing : IsView [] (fun _ => (none : Option Unit)) where
  parent _ _ := rfl
  edges _ _ _ := rfl
  entries _ _ _ := rfl
  name _ _ _ := rfl
  attributes _ _ _ _ _ := rfl
  fresh _ _ _ := rfl
  promote _ _ _ := rfl

/-- No operation changes what is not shown. -/
theorem unseen_nothing (g : Graph) (operation : Operation) :
    operation.Unseen (fun _ => (none : Option Unit)) g := by
  unfold Operation.Unseen
  split
  case h_8 => trivial
  all_goals exact fun _ _ => by simp

/-- An operation that keeps the record only adds to texts and record. -/
theorem extends_perform (keeps : operation.KeepsRecord g) (room : g.size < idLimit) :
    g.Extends (operation.perform g).2 := by
  rcases asked_or_keepsView isView_nothing keeps (unseen_nothing g operation) room with asked | keeps
  · exact asked.extended
  · exact keeps.extended

/-- What is on record stays so along edits that only add to it, while ids last. -/
theorem Along.extends_of {rule : Graph → Operation → Prop}
    (isEdit : ∀ g (operation : Operation), rule g operation → operation.IsEdit)
    (grows : ∀ g operation, rule g operation → g.size < idLimit →
      g.Extends (operation.perform g).2)
    (along : g.Along rule history) (room : (g.after history).size < idLimit) :
    g.Extends (g.after history) := by
  induction history generalizing g with
  | nil => exact ⟨.refl, fun _ _ known => known⟩
  | cons operation rest ih =>
    obtain ⟨obeys, others⟩ := along
    have next := Graph.size_le_of_isEdit (g := g) (isEdit g operation obeys)
    have last := others.size_le_of_isEdit isEdit
    have first := grows g operation obeys (by rw [after_cons] at room; omega)
    exact first.trans (ih others room)

/-- What is on record stays so, while ids last. -/
theorem Along.extends_after (along : g.Along Operation.KeepsRecord history)
    (room : (g.after history).size < idLimit) : g.Extends (g.after history) :=
  along.extends_of (fun _ _ keeps => keeps.isEdit) (fun _ _ => extends_perform) room

end Record

/-- A filing whose view depends on the edges of nodes of the kinds in `fixed` only, whose keys last,
and that goes by what nodes stand for. -/
structure Filing.Lawful {α : Type} (fixed : List NodeKind) (c : Filing α) : Prop where
  isView : IsView fixed c.view
  lasting : c.Lasting
  fits : ∀ {t key n}, Belongs t key n → c.Fits t key n

/-- The filing of values depends on the edges of references only. -/
theorem lawful_values : values.Lawful referenceKinds where
  isView := GraphFile.isView_singletonKey?
  lasting := Filing.lasting_values
  fits belongs := belongs.1

/-- The filing of types depends on the edges of types only. -/
theorem lawful_types : types.Lawful [.type] where
  isView := isView_typeFormers?
  lasting := Filing.lasting_types
  fits belongs := belongs.2

/-- A filing may be said to depend on more kinds than it does. -/
theorem Filing.Lawful.mono {α : Type} {c : Filing α} {fixed more : List NodeKind}
    (lawful : c.Lawful fixed) (subset : fixed ⊆ more) : c.Lawful more :=
  ⟨lawful.isView.mono subset, lawful.lasting, lawful.fits⟩

section Lawful

variable {α : Type} {c : Filing α} {fixed : List NodeKind} (lawful : c.Lawful fixed)

include lawful

/-- Record and nodes go on telling the same when a node is asked for. -/
theorem Filed.asked (filed : Filed c g) (asked : g.Asked h) (room : g.size < idLimit)
    (keep : ∀ s key, g.texts.keyOf? s = some key → h.texts.keyOf? s = some key) : Filed c h := by
  cases asked with
  | known adds =>
    have size : h.size = g.size := congrArg NodeTable.size adds.nodes
    exact filed.keeps lawful.lasting (adds.keepsView c.view) keep (size ▸ room)
  | @made m _ _ _ adds makes belongs =>
    have size : m.size = g.size := congrArg NodeTable.size adds.nodes
    rw [makes.texts] at keep
    exact (filed.keeps lawful.lasting (adds.keepsView c.view) keep (size ▸ room)).makes makes
      (lawful.fits belongs)

/-- An operation that spares what nodes stand for keeps record and nodes in step. -/
theorem Filed.perform (filed : Filed c g) (suited : g.nodes.Suited) {operation : Operation}
    (spares : operation.Spares fixed g) (room : (operation.perform g).2.size < idLimit)
    (keep : ∀ s key, g.texts.keyOf? s = some key →
      (operation.perform g).2.texts.keyOf? s = some key) : Filed c (operation.perform g).2 := by
  have keepsRecord := spares.keepsRecord
  have before : g.size < idLimit := Nat.lt_of_le_of_lt (size_le_perform keepsRecord) room
  have unseen := spares.unseen lawful.isView suited
  rcases asked_or_keepsView lawful.isView keepsRecord unseen before with asked | keeps
  · exact filed.asked lawful asked before keep
  · exact filed.keeps lawful.lasting keeps keep room

/-- A root of a new graph stands for nothing. -/
theorem keepsView_reserve (g : Graph) {kind : NodeKind} (plain : kind ∈ plainKinds) {id : NodeId}
    (hole : g.find? id = none) (name : String) : KeepsView c.view g (g.reserve kind id name) := by
  have other : kind ≠ .component := by
    rintro rfl
    revert plain
    decide
  have inserted : KeepsView c.view (g.intern name).2 ((g.intern name).2.insertNode kind id) :=
    keepsView_insertNode hole (lawful.isView.fresh id kind plain)
  refine (keepsView_intern g name).trans (inserted.trans (keepsView_updateNode fun n found => ?_))
  rw [find?_insertNode, if_pos rfl] at found
  cases found
  exact lawful.isView.setName other _

/-- The root and the file system of a new graph show nothing. -/
theorem keepsView_newRoots (language : Language) :
    KeepsView c.view (empty language true) (newRoots language) := by
  have nothing : ∀ id, (empty language true).find? id = none := NodeTable.find?_empty
  refine (keepsView_reserve lawful _ (by decide) (nothing rootId) rootName).trans
    (keepsView_reserve lawful _ (by decide) ?_ fileSystemName)
  rw [find?_reserve_other _ _ (by decide)]
  exact nothing fileSystemId

end Lawful

/-- Reserving an id never makes a graph smaller. -/
theorem size_le_reserve (g : Graph) (kind : NodeKind) (id : NodeId) (name : String) :
    g.size ≤ (g.reserve kind id name).size := by
  rw [reserve, size_updateNode, size_insertNode]
  exact Nat.le_max_left _ _

/-- A component at a reserved id is put on record as if it were asked for. -/
theorem asked_reserve (g : Graph) {id : NodeId} (hole : g.find? id = none) {name : String}
    (nothing : g.singletons = []) :
    g.Asked ((g.reserve .component id name).remember (.component (g.intern name).1) id) := by
  let n := (Node.fresh id .component).setName (g.intern name).1
  have find : ∀ other, (g.reserve .component id name).find? other =
      if other = n.id then some n else (g.intern name).2.find? other := by
    intro other
    change _ = if other = id then _ else _
    rw [reserve, find?_updateNode, find?_insertNode, find?_insertNode, if_pos rfl]
    split <;> rfl
  have new : (g.intern name).2.singleton? (.component (g.intern name).1) = none := by
    change SortedMap.lookup _ g.singletons = none
    rw [nothing]
    rfl
  have makes : (g.intern name).2.Makes (.component (g.intern name).1) n
      ((g.reserve .component id name).remember (.component (g.intern name).1) n.id) :=
    makes_remember new hole find rfl rfl
  exact .made (addsTexts_intern g name) makes
    (belongs_value rfl rfl (by change NodeKind.component ≠ .type; decide))

/-- The system component of a new graph is asked for like any other component. -/
theorem asked_new (language : Language) : (newRoots language).Asked (new language) := by
  have hole : (newRoots language).find? systemComponentId = none := by
    unfold newRoots
    rw [find?_reserve_other _ _ (by decide), find?_reserve_other _ _ (by decide)]
    exact NodeTable.find?_empty systemComponentId
  rw [new_eq]
  exact asked_reserve _ hole rfl

/-- Record and nodes are in step as long as ids and keys last. -/
structure InStep {α : Type} (c : Filing α) (g : Graph) : Prop where
  suited : g.nodes.Suited
  numbered : g.texts.Numbered
  filed : g.size < idLimit → g.texts.texts.find? TextTable.lastKey = none →
    Filed c g ∧ g.texts.Interned

section InStep

variable {α : Type} {c : Filing α} {fixed : List NodeKind} (lawful : c.Lawful fixed)

include lawful

/-- Record and nodes of a new graph are in step. -/
theorem inStep_new (language : Language) : InStep c (new language) := by
  have roots := keepsView_newRoots lawful language
  have asked := asked_new language
  refine ⟨suited_nodes_after language [] trivial, numbered_after language [],
    fun room unused => ?_⟩
  obtain ⟨numbered, rootTexts⟩ := roots.texts.spec TextTable.numbered_empty
  obtain ⟨rootUnused, keep, interned⟩ := (asked.extended.texts.spec numbered).2 unused
  obtain ⟨-, rootKeep, rootInterned⟩ := rootTexts rootUnused
  have rootRoom : (newRoots language).size < idLimit := by
    rw [new_eq, size_remember] at room
    exact Nat.lt_of_le_of_lt (size_le_reserve _ _ _ _) room
  have rootFiled := (Filed.empty language true).keeps lawful.lasting roots rootKeep rootRoom
  exact ⟨rootFiled.asked lawful asked rootRoom keep,
    interned (rootInterned TextTable.interned_empty)⟩

/-- Record and nodes stay in step under an operation that spares what nodes are keyed by. -/
theorem InStep.perform (inStep : InStep c g) {operation : Operation}
    (spares : operation.Spares fixed g) : InStep c (operation.perform g).2 := by
  have keeps := spares.keepsRecord
  refine ⟨keepsRecord_preserves (fun _ _ edit => edit.suited) keeps inStep.suited,
    keepsRecord_preserves (P := fun g => g.texts.Numbered) (fun _ _ edit => edit.numbered) keeps
      inStep.numbered, fun room unused => ?_⟩
  have before : g.size < idLimit := Nat.lt_of_le_of_lt (size_le_perform keeps) room
  have grows := extends_perform keeps before
  obtain ⟨unusedBefore, keep, interned⟩ := (grows.texts.spec inStep.numbered).2 unused
  obtain ⟨filed, internedBefore⟩ := inStep.filed before unusedBefore
  exact ⟨filed.perform lawful inStep.suited spares room keep, interned internedBefore⟩

/-- Record and nodes are in step after every history that spares what nodes stand for. -/
theorem inStep_after {language : Language} {history : List Operation}
    (along : (new language).Along (Operation.Spares fixed) history) :
    InStep c ((new language).after history) :=
  along.preserves (fun _ _ spares inStep => inStep.perform lawful spares)
    (inStep_new lawful language)

end InStep

end Graph

end CodeGraph
