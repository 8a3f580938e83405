import CodeGraph.Proofs.ValueUniqueness

/-!
# Nodes on record that are changed

What is on record stays there, whatever is done to the nodes. So the call that a node was made for
gives that node ever after, even when it no longer stands for what the call asks for. It still does
unless somebody changed what tells it: the name of a component, attributes, or the edge to what the
node refers to (`Operation.Alters`). The argument looks at one id at a time. A view that sees the
node at that id only is kept by all operations that do not alter it (`unseen_only`), hence the node
goes on showing what it is on record for (`Upheld.perform`). Main statement: `calls_answered_after`.
-/

set_option autoImplicit false

namespace CodeGraph

namespace Operation

/-- Whether an operation is a change to the node at an id that may change what it stands for: to the
name of a component, to attributes that tell it, or to the edge to what the node refers to. -/
def Alters (id : NodeId) (g : Graph) : Operation → Prop
  | .setName changed _ | .setNameKey changed _ =>
    changed = id ∧ ∃ n ∈ g.find? id, n.kind = .component
  | .setAttributes changed _ => changed = id ∧ ∃ n ∈ g.find? id, n.kind ∈ Graph.describedKinds
  | .addEdge e source _ | .addValueEdge e source _ _ | .setEdge e source _
  | .removeEdge e source _ =>
    source = id ∧ e ∈ GraphFile.referenceEdges ∧ ∃ n ∈ g.find? id, n.kind ∈ Graph.referenceKinds
  | _ => False

/-- Asking for a value alters no node. -/
theorem not_alters_of_asksForValue {operation : Operation} (asks : operation.asksForValue = true)
    (id : NodeId) (g : Graph) : ¬ operation.Alters id g := by
  cases operation <;> first | exact not_false | cases asks

end Operation

namespace Graph

variable {α : Type} {view : Node → Option α} {g h : Graph} {id : NodeId} {operation : Operation}

/-! ## The node at one id -/

/-- A view that sees the node at one id only. -/
def only (id : NodeId) (view : Node → Option α) (n : Node) : Option α :=
  if n.id = id then view n else none

/-- A view of one node sees no other. -/
theorem only_of_ne {n : Node} (other : n.id ≠ id) : only id view n = none :=
  if_neg other

/-- A view of one node sees it as the whole view does. -/
theorem shown_only (indexed : g.nodes.Indexed) (view : Node → Option α) (id : NodeId) :
    g.shown (only id view) id = g.shown view id := by
  unfold shown
  cases found : g.find? id with
  | none => rfl
  | some n => exact if_pos (indexed.id_eq found)

/-- Nodes with the same id that show the same also do so to a view of one node. -/
theorem only_congr {n m : Node} (own : m.id = n.id) (shows : view m = view n) :
    only id view m = only id view n := by
  unfold only
  rw [own, shows]

/-- A view of what nodes stand for is still one if it sees the node at one id only. -/
theorem isView_only {fixed : List NodeKind} (law : IsView fixed view) (id : NodeId) :
    IsView fixed (only id view) where
  parent n p := only_congr rfl (law.parent n p)
  edges n slots free := only_congr rfl (law.edges n slots free)
  entries n m t := only_congr rfl (law.entries n m t)
  name n name other := only_congr rfl (law.name n name other)
  attributes n attributes other suits suits' :=
    only_congr rfl (law.attributes n attributes other suits suits')
  fresh made kind plain := by
    unfold only
    rw [law.fresh made kind plain, ite_self]
  promote n kind wider := only_congr rfl (law.promote n kind wider)

/-- An operation that does not alter the node at an id keeps what that node stands for. -/
theorem unseen_only (indexed : g.nodes.Indexed) (suited : g.nodes.Suited)
    (keeps : operation.KeepsRecord g) (spared : ¬ operation.Alters id g) :
    operation.Unseen (only id GraphFile.singletonKey?) g := by
  have law := isView_only GraphFile.isView_singletonKey? id
  have elsewhere : ∀ {changed : NodeId} {n : Node}, g.find? changed = some n → changed ≠ id →
      n.id ≠ id := fun found other => (indexed.id_eq found).trans_ne other
  cases operation with
  | setName changed name | setNameKey changed name =>
    intro n found key
    by_cases kind : n.kind = .component
    · have other := elsewhere found fun same => spared ⟨same, n, same ▸ found, kind⟩
      rw [only_of_ne other, only_of_ne ((n.id_setName key).trans_ne other)]
    · exact law.setName kind key
  | setAttributes changed attributes =>
    intro n found
    by_cases kind : n.kind ∈ describedKinds
    · have other := elsewhere found fun same => spared ⟨same, n, same ▸ found, kind⟩
      rw [only_of_ne other, only_of_ne (n := { n with attributes }) other]
    · exact law.attributes n attributes kind (suited changed n found) (keeps n found)
  | addEdge e source target | addValueEdge e source target value | setEdge e source target
  | removeEdge e source target =>
    intro n found f
    by_cases kind : n.kind ∈ referenceKinds
    · by_cases refers : e ∈ GraphFile.referenceEdges
      · have other := elsewhere found fun same => spared ⟨same, refers, n, same ▸ found, kind⟩
        rw [only_of_ne other, only_of_ne (n := n.mapTargets e f) other]
      · exact only_congr rfl (GraphFile.singletonKey?_mapTargets refers n f)
    · exact law.mapTargets kind e f
  | _ => trivial

/-! ## What the node at one id is on record for -/

/-- The node at an id shows every value that it is on record for. -/
def Tells (g : Graph) (id : NodeId) : Prop :=
  ∀ key, values.covers key = true → g.singleton? key = some id →
    g.shown GraphFile.singletonKey? id = some key

/-- A node goes on telling its value if changes keep what it shows and add nothing on record. -/
theorem Tells.keeps (tells : g.Tells id) (keeps : KeepsView (only id GraphFile.singletonKey?) g h)
    (indexed : g.nodes.Indexed) (indexed' : h.nodes.Indexed) (room : h.size < idLimit) :
    h.Tells id := by
  intro key covers known
  have before : g.singleton? key = some id := by
    unfold singleton? at known ⊢
    rw [← keeps.singletons]
    exact known
  have shows := keeps.shown room id
  rw [shown_only indexed, shown_only indexed'] at shows
  exact shows.trans (tells key covers before)

/-- A node goes on telling its value when another one is made that fits its key. -/
theorem Tells.makes {key : SingletonKey} {n : Node} (tells : g.Tells id) (makes : g.Makes key n h)
    (fits : values.Fits g.texts key n) : h.Tells id := by
  intro other covers known
  rw [makes.singleton?] at known
  rw [makes.shown]
  split at known
  · next same =>
    cases known
    cases same
    unfold Filing.Fits at fits
    rw [if_pos covers] at fits
    obtain ⟨_, shows, named⟩ := fits
    cases named
    rw [if_pos rfl]
    exact shows
  · have shows := tells other covers known
    -- nothing was on record at the id of the new node, since there was no node
    have elsewhere : id ≠ n.id := by
      rintro rfl
      rw [Graph.shown, makes.hole] at shows
      cases shows
    rw [if_neg elsewhere]
    exact shows

/-- A node goes on telling its value when one is asked for. -/
theorem Tells.asked (tells : g.Tells id) (asked : g.Asked h) : h.Tells id := by
  have texts : ∀ {m : Graph}, g.AddsTexts m → m.Tells id := by
    intro m adds key covers known
    unfold singleton? at known
    rw [adds.singletons] at known
    unfold shown find?
    rw [adds.nodes]
    exact tells key covers known
  cases asked with
  | known adds => exact texts adds
  | made adds makes belongs => exact (texts adds).makes makes belongs.1

/-- A new graph has a node on record for its first component only. -/
theorem tells_new (language : Language) (id : NodeId) : (new language).Tells id := by
  have nothing : (newRoots language).Tells id := by
    intro key covers known
    cases known
  exact nothing.asked (asked_new language)

/-- What is known of the node at one id after a history that does not alter it. -/
structure Upheld (id : NodeId) (g : Graph) : Prop where
  indexed : g.nodes.Indexed
  suited : g.nodes.Suited
  tells : g.size < idLimit → g.Tells id

/-- In a new graph every node on record tells its value. -/
theorem upheld_new (language : Language) (id : NodeId) : Upheld id (new language) :=
  ⟨indexed_after language [], suited_nodes_after language [] trivial,
    fun _ => tells_new language id⟩

/-- An operation that keeps the record and does not alter the node upholds what is known of it. -/
theorem Upheld.perform (upheld : Upheld id g) (keeps : operation.KeepsRecord g)
    (spared : ¬ operation.Alters id g) : Upheld id (operation.perform g).2 := by
  have indexed : (operation.perform g).2.nodes.Indexed :=
    keepsRecord_preserves (P := fun g => g.nodes.Indexed) (fun _ _ edit => edit.indexed) keeps
      upheld.indexed
  refine ⟨indexed, keepsRecord_preserves (fun _ _ edit => edit.suited) keeps upheld.suited,
    fun room => ?_⟩
  have before : g.size < idLimit := Nat.lt_of_le_of_lt (size_le_perform keeps) room
  have tells := upheld.tells before
  have law := isView_only GraphFile.isView_singletonKey? id
  have unseen := unseen_only upheld.indexed upheld.suited keeps spared
  rcases asked_or_keepsView law keeps unseen before with asked | kept
  · exact tells.asked asked
  · exact tells.keeps kept upheld.indexed indexed room

section Histories

variable {language : Language} {history : List Operation}

/-- A history that keeps the record and never alters the node upholds what is known of it. -/
theorem upheld_after (keeps : (new language).Along Operation.KeepsRecord history)
    (spared : (new language).Along (fun g operation => ¬ operation.Alters id g) history) :
    Upheld id ((new language).after history) :=
  (keeps.and spared).preserves (fun _ _ rule upheld => upheld.perform rule.1 rule.2)
    (upheld_new language id)

/-- Texts and keys belong together while keys last. -/
theorem interned_after (keeps : (new language).Along Operation.KeepsRecord history)
    (room : ((new language).after history).size < idLimit)
    (unused : ((new language).after history).texts.texts.find? TextTable.lastKey = none) :
    ((new language).after history).texts.Interned := by
  have grows := keeps.extends_after room
  obtain ⟨start, -, interned⟩ := (grows.texts.spec (numbered_after language [])).2 unused
  have roomBefore := Nat.lt_of_le_of_lt keeps.size_le room
  exact interned ((inStep_new lawful_values language).filed roomBefore start).2

/-- A node on record for what a call asks for answers the call, if nobody altered the node. -/
theorem Upheld.answers {key : SingletonKey} (upheld : Upheld id g) (interned : g.texts.Interned)
    (room : g.size < idLimit) (named : operation.valueKey? g.texts = some key)
    (record : g.singleton? key = some id) : ∃ n, g.find? id = some n ∧ g.Answers n operation := by
  have shows := upheld.tells room key (Operation.covers_of_valueKey? named) record
  obtain ⟨n, found, told⟩ := Option.bind_eq_some_iff.1 shows
  have stands := (GraphFile.singletonKey?_eq_some_iff (upheld.suited id n found) key).1 told
  exact ⟨n, found, (answers_iff interned n operation).2 ⟨key, named, stands⟩⟩

end Histories

/-- Along a history that keeps what is on record, and while ids and keys last, every call is
answered with the node that it was answered with first. Whenever a call gives a node that nobody has
altered so far, that node is of the kind and carries the value that the call asks for. -/
theorem calls_answered_after {language : Language} {history : List Operation}
    (keeps : (new language).Along Operation.KeepsRecord history)
    (room : ((new language).after history).size < idLimit)
    (keys : ((new language).after history).texts.SparesLastKey) :
    (∀ operation id, operation.asksForValue = true → (new language).Gives history operation id →
      operation.perform ((new language).after history) =
        (.ok (.node id), (new language).after history)) ∧
    ∀ before operation after id, history = before ++ operation :: after →
      operation.asksForValue = true →
      (operation.perform ((new language).after before)).1 = .ok (.node id) →
      (new language).Along (fun g earlier => ¬ earlier.Alters id g) before →
      ∃ n, (operation.perform ((new language).after before)).2.find? id = some n ∧
        (operation.perform ((new language).after before)).2.Answers n operation := by
  refine ⟨fun operation id asks gives => ?_, ?_⟩
  · obtain ⟨key, named, record⟩ := gives.lasts keeps room asks keys.unused
    exact perform_of_record named record
  · rintro before operation after id rfl asks given spared
    have unused := keys.unused
    obtain ⟨first, here, rest⟩ := along_append.1 keeps
    rw [after_append, after_cons] at room unused
    let now := (operation.perform ((new language).after before)).2
    have upheld : Upheld id now :=
      (upheld_after first spared).perform here (operation.not_alters_of_asksForValue asks id _)
    have roomNow : now.size < idLimit := Nat.lt_of_le_of_lt rest.size_le room
    have roomBefore := Nat.lt_of_le_of_lt (size_le_perform here) roomNow
    have is : (new language).after (before ++ [operation]) = now := after_append _ _ _
    have numbered : now.texts.Numbered := is ▸ numbered_after language (before ++ [operation])
    obtain ⟨unusedNow, -, -⟩ := ((rest.extends_after room).texts.spec numbered).2 unused
    have upToNow : (new language).Along Operation.KeepsRecord (before ++ [operation]) :=
      along_append.2 ⟨first, here, trivial⟩
    have interned : now.texts.Interned :=
      is ▸ interned_after upToNow (is.symm ▸ roomNow) (is.symm ▸ unusedNow)
    obtain ⟨key, named, record⟩ := record_perform roomBefore asks given
    exact upheld.answers interned roomNow named record

/-- A history that asks for a reference to a class twice, with changes to the class and to another
value in between. -/
def referringHistory : List Operation :=
  [.createNode .plainClass, .typeReference (some (madeId 0)), .component "a",
    .setName (madeId 2) "b", .setName (madeId 0) "A", .typeReference (some (madeId 0))]

/-- The second call of that history gives the node of the first one, which still answers it. -/
theorem calls_answered_after_renaming :
    let h := (new .java).after (referringHistory.take 5)
    let f := (new .java).after referringHistory
    (new .java).Along Operation.KeepsRecord referringHistory ∧ f.size = 106 ∧
      f.texts.SparesLastKey ∧
      (Operation.typeReference (some (madeId 0))).perform f = (.ok (.node (madeId 1)), f) ∧
      ∃ n, ((Operation.typeReference (some (madeId 0))).perform h).2.find? (madeId 1) = some n ∧
        n.single? .typeFormerTypeRefersTo = some (madeId 0) := by
  intro h f
  have facts : ((Operation.typeReference (some (madeId 0))).perform h).1 =
        .ok (.node (madeId 1)) ∧ f.size = 106 ∧ f.texts.SparesLastKey := by decide +kernel
  obtain ⟨given, size, keys⟩ := facts
  have keeps : (new .java).Along Operation.KeepsRecord referringHistory :=
    ⟨trivial, trivial, trivial, trivial, trivial, trivial, trivial⟩
  have room : f.size < idLimit := by
    rw [size]
    decide
  have renamed : ∀ g, ¬ (Operation.setName (madeId 2) "b").Alters (madeId 1) g :=
    fun _ alters => absurd alters.1 (by decide)
  have named : ∀ g, ¬ (Operation.setName (madeId 0) "A").Alters (madeId 1) g :=
    fun _ alters => absurd alters.1 (by decide)
  have spared : (new .java).Along (fun g earlier => ¬ earlier.Alters (madeId 1) g)
      (referringHistory.take 5) :=
    ⟨not_false, not_false, not_false, renamed _, named _, trivial⟩
  obtain ⟨again, answers⟩ := calls_answered_after keeps room keys
  have gives : (new .java).Gives referringHistory (.typeReference (some (madeId 0))) (madeId 1) :=
    ⟨referringHistory.take 5, [], rfl, given⟩
  obtain ⟨n, found, -, refers⟩ := answers _ _ [] (madeId 1) rfl rfl given spared
  exact ⟨keeps, size, keys, again _ _ rfl gives, n, found, refers⟩

/-- A history that redirects a reference and renames a component. -/
def redirectingHistory : List Operation :=
  [.createNode .plainClass, .createNode .plainClass, .typeReference (some (madeId 0)),
    .setEdge .typeFormerTypeRefersTo (madeId 2) (some (madeId 1)), .component "a",
    .setName (madeId 3) "b"]

/-- After that history the calls for the old values still give the changed nodes, which do not
answer them. -/
theorem stale_after_redirecting :
    let f := (new .java).after redirectingHistory
    (new .java).Along Operation.KeepsRecord redirectingHistory ∧
      (∃ n, (Operation.typeReference (some (madeId 0))).perform f = (.ok (.node (madeId 2)), f) ∧
        f.find? (madeId 2) = some n ∧ n.single? .typeFormerTypeRefersTo = some (madeId 1) ∧
        ¬ f.Answers n (.typeReference (some (madeId 0)))) ∧
      ∃ n, (Operation.component "a").perform f = (.ok (.node (madeId 3)), f) ∧
        f.find? (madeId 3) = some n ∧ f.texts.find? n.name = some "b" ∧
        ¬ f.Answers n (.component "a") := by
  intro f
  have facts : f.singleton? (.typeReference (some (madeId 0))) = some (madeId 2) ∧
      (f.find? (madeId 2)).map (fun n => n.single? .typeFormerTypeRefersTo) =
        some (some (madeId 1)) ∧
      ((Operation.component "a").valueKey? f.texts).bind f.singleton? = some (madeId 3) ∧
      (f.find? (madeId 3)).bind (fun n => f.texts.find? n.name) = some "b" := by decide +kernel
  obtain ⟨reference, redirected, component, renamed⟩ := facts
  obtain ⟨n, found, points⟩ := Option.map_eq_some_iff.1 redirected
  obtain ⟨key, named, known⟩ := Option.bind_eq_some_iff.1 component
  obtain ⟨m, found', text⟩ := Option.bind_eq_some_iff.1 renamed
  refine ⟨⟨trivial, trivial, trivial, trivial, trivial, trivial, trivial⟩,
    ⟨n, perform_of_record rfl reference, found, points, fun answers => ?_⟩,
    ⟨m, perform_of_record named known, found', text, fun answers => ?_⟩⟩
  · have same : some (madeId 1) = some (madeId 0) := points.symm.trans answers.2
    exact absurd same (by decide)
  · have same : some "b" = some "a" := text.symm.trans answers.2
    exact absurd same (by decide)

end Graph

end CodeGraph
