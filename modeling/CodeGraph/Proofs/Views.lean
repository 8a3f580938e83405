import CodeGraph.Proofs.Interning

/-!
# What is seen of the nodes

A view looks at a node and sees something, or nothing. Operations keep a view of a graph if new nodes
show nothing and changed ones show what they showed before; then they also keep the record of the
nodes that stand for values, and texts are only added. Main statement: `keepsView_perform`, an
operation keeps a view that depends neither on parents nor on what folders and file systems hold, if
the nodes that it names show what they showed before (`Operation.Unseen`). Operations that spare what
nodes stand for are of that sort (`Operation.Spares.unseen`).
-/

set_option autoImplicit false

namespace CodeGraph

open Relation

namespace Graph

variable {α : Type} {view : Node → Option α} {g h k : Graph}

/-- What the node at an id shows. -/
def shown (view : Node → Option α) (g : Graph) (id : NodeId) : Option α :=
  (g.find? id).bind view

/-- One graph comes from another without a change to what its nodes show, while ids last. -/
structure KeepsView (view : Node → Option α) (g h : Graph) : Prop where
  singletons : h.singletons = g.singletons
  texts : g.texts.Interns h.texts
  size : g.size ≤ h.size
  shown : h.size < idLimit → ∀ id, h.shown view id = g.shown view id

namespace KeepsView

/-- Nodes show the same where nothing is done. -/
theorem refl (g : Graph) : KeepsView view g g :=
  ⟨rfl, .refl, Nat.le_refl _, fun _ _ => rfl⟩

/-- Nodes show the same after two changes that keep it. -/
theorem trans (first : KeepsView view g h) (second : KeepsView view h k) : KeepsView view g k where
  singletons := second.singletons.trans first.singletons
  texts := first.texts.trans second.texts
  size := Nat.le_trans first.size second.size
  shown room id := (second.shown room id).trans
    (first.shown (Nat.lt_of_le_of_lt second.size room) id)

/-- Only nodes, texts and the record of values count. -/
theorem congr (keeps : KeepsView view g h) (nodes : k.nodes = h.nodes) (texts : k.texts = h.texts)
    (singletons : k.singletons = h.singletons) : KeepsView view g k := by
  have size : k.size = h.size := congrArg NodeTable.size nodes
  refine ⟨singletons.trans keeps.singletons, texts.symm ▸ keeps.texts, size.symm ▸ keeps.size,
    fun room id => ?_⟩
  have same : k.shown view id = h.shown view id := by
    unfold Graph.shown Graph.find?
    rw [nodes]
  exact same.trans (keeps.shown (size ▸ room) id)

end KeepsView

/-- Interning keeps what nodes show. -/
theorem keepsView_intern (g : Graph) (s : String) : KeepsView view g (g.intern s).2 :=
  ⟨rfl, g.texts.interns_intern s, Nat.le_refl _, fun _ _ => rfl⟩

/-- Changing a node keeps what nodes show, if that node goes on showing the same. -/
theorem keepsView_updateNode {id : NodeId} {f : Node → Node}
    (same : ∀ n, g.find? id = some n → view (f n) = view n) :
    KeepsView view g (g.updateNode id f) := by
  refine ⟨rfl, .refl, Nat.le_of_eq (size_updateNode g id f).symm, fun _ other => ?_⟩
  unfold shown
  rw [find?_updateNode]
  split
  · next here =>
    rw [here]
    cases found : g.find? id with
    | none => rfl
    | some n => exact same n found
  · rfl

/-- A new node at an unused id keeps what nodes show, if it shows nothing. -/
theorem keepsView_insertNode {id : NodeId} {kind : NodeKind} (hole : g.find? id = none)
    (nothing : view (.fresh id kind) = none) : KeepsView view g (g.insertNode kind id) := by
  refine ⟨rfl, .refl, ?_, fun _ other => ?_⟩
  · rw [size_insertNode]
    exact Nat.le_max_left _ _
  · unfold shown
    rw [find?_insertNode]
    split
    · next here =>
      rw [here, hole]
      exact nothing
    · rfl

/-- A new node that shows nothing is not seen. -/
theorem keepsView_newNode (g : Graph) {kind : NodeKind}
    (nothing : view (.fresh g.nextId kind) = none) : KeepsView view g (g.newNode kind).2 := by
  have size : (g.newNode kind).2.size = max g.size (g.nextId.index + 1) := size_insertNode g kind _
  refine ⟨rfl, .refl, size.symm ▸ Nat.le_max_left _ _, fun room => ?_⟩
  have hole : g.find? g.nextId = none := (nextId_fresh (by omega)).2
  exact (keepsView_insertNode hole nothing).shown room

/-- Making a node with a name or attributes keeps what nodes show, if it shows nothing. -/
theorem keepsView_newNodeWith (g : Graph) {kind : NodeKind} {f : Node → Node}
    (nothing : view (.fresh g.nextId kind) = none)
    (still : view (f (.fresh g.nextId kind)) = none) :
    KeepsView view g (g.newNodeWith kind f).2 := by
  refine (keepsView_newNode g nothing).trans (keepsView_updateNode fun n found => ?_)
  rw [newNode, find?_insertNode, if_pos rfl] at found
  cases found
  rw [nothing, still]

/-! ## Edges -/

/-- Linking keeps the record. -/
theorem singletons_link (g : Graph) (e : EdgeKind) (source : NodeId) (t : Target) :
    (g.link e source t).singletons = g.singletons :=
  link_preserves (P := fun h => h.singletons = g.singletons) (fun _ _ _ same => same)
    (fun _ _ same => same) e source t rfl

/-- Unlinking keeps the record. -/
theorem singletons_unlink (g : Graph) (e : EdgeKind) (source target : NodeId) :
    (g.unlink e source target).singletons = g.singletons :=
  unlink_preserves (P := fun h => h.singletons = g.singletons) (fun _ _ _ same => same)
    (fun _ _ same => same) e source target rfl

section Parents

variable (parents : ∀ (n : Node) p, view { n with parent := p } = view n)

include parents

/-- Linking an edge keeps what nodes show, if its source goes on showing the same. -/
theorem keepsView_link {e : EdgeKind} {source : NodeId} {t : Target}
    (same : ∀ n, g.find? source = some n → view (n.addTarget e t) = view n) :
    KeepsView view g (g.link e source t) := by
  have added : KeepsView view g (g.updateNode source fun n => n.addTarget e t) :=
    keepsView_updateNode same
  have texts := texts_link g e source t
  have singletons := singletons_link g e source t
  have nodes := nodes_link g e source t
  split at nodes
  · have adopted : KeepsView view g ((g.updateNode source fun n => n.addTarget e t).updateNode t.id
        (Node.adopted ⟨source, e⟩)) :=
      added.trans (keepsView_updateNode fun n _ => parents n (some ⟨source, e⟩))
    exact adopted.congr nodes texts singletons
  · exact added.congr nodes texts singletons

/-- Adding an edge keeps what nodes show, if its source goes on showing the same. -/
theorem keepsView_withEdge {e : EdgeKind} {source target : NodeId}
    (same : ∀ n, g.find? source = some n → ∀ t, view (n.addTarget e t) = view n)
    (added : g.withEdge e source target = .ok h) : KeepsView view g h := by
  obtain ⟨-, rfl⟩ := withEdge_eq_ok added
  exact keepsView_link parents fun n found => same n found _

/-- Removing an edge keeps what nodes show, if its source goes on showing the same. -/
theorem keepsView_withoutEdge {e : EdgeKind} {source target : NodeId} {removed : Bool}
    (same : ∀ n, g.find? source = some n → view (n.removeTarget e target) = view n)
    (done : g.withoutEdge e source target = .ok (removed, h)) : KeepsView view g h := by
  obtain rfl | ⟨-, -, -, rfl⟩ := withoutEdge_eq_ok done
  · exact .refl h
  · have taken : KeepsView view g (g.updateNode source fun n => n.removeTarget e target) :=
      keepsView_updateNode same
    have texts := texts_unlink (g.updateNode source fun n => n.removeTarget e target) e source target
    have singletons :=
      singletons_unlink (g.updateNode source fun n => n.removeTarget e target) e source target
    have nodes := nodes_unlink (g.updateNode source fun n => n.removeTarget e target) e source target
    split at nodes
    · refine (taken.trans (keepsView_updateNode (f := Node.freed source) fun n _ => ?_)).congr
        nodes texts singletons
      rw [Node.freed_eq]
      exact parents n _
    · exact taken.congr nodes texts singletons

/-- Setting the one edge of a kind keeps what nodes show, if its source goes on showing the same. -/
theorem keepsView_withSingle {e : EdgeKind} {source : NodeId} {target : Option NodeId}
    (added : ∀ n, g.find? source = some n → ∀ t, view (n.addTarget e t) = view n)
    (taken : ∀ n, g.find? source = some n → ∀ t, view (n.removeTarget e t) = view n)
    (done : g.withSingle e source target = .ok h) : KeepsView view g h := by
  obtain ⟨-, rfl | ⟨t, -, rfl⟩ | ⟨previous, removed, gone⟩⟩ := withSingle_eq_ok done
  · exact .refl h
  · exact keepsView_link parents fun n found => added n found _
  · exact keepsView_withoutEdge parents (fun n found => taken n found previous) gone

/-! ## Files -/

/-- Opening an entry keeps what nodes show, if entries show nothing and containers go on showing the
same. -/
theorem keepsView_openEntry {kind : NodeKind} (fresh : ∀ id, view (.fresh id kind) = none)
    (named : ∀ id key, view ((Node.fresh id kind).setName key) = none)
    (entries : ∀ n m t, view (n.addTarget (entryEdge m) t) = view n) (g : Graph)
    (container : NodeId) (name : String) :
    KeepsView view g (g.openEntry container name kind).2 := by
  rw [openEntry_eq]
  unfold withEntry
  split
  · exact .refl g
  · next holder _ =>
    split
    · exact .refl g
    · have interned : KeepsView view g (g.intern name).2 := keepsView_intern g name
      have created : KeepsView view (g.intern name).2
          ((g.intern name).2.newNodeWith kind fun n => n.setName (g.intern name).1).2 :=
        keepsView_newNodeWith _ (fresh _) (named _ _)
      have made := interned.trans created
      simp only
      split
      · exact made
      · next added => exact made.trans (keepsView_withEdge parents (fun n _ => entries n holder) added)

end Parents

/-! ## Operations -/

/-- The kinds of nodes that stand for what their one edge points to. -/
def referenceKinds : List NodeKind :=
  [.typeFormerType, .attributeAccess, .methodCall]

/-- The kinds of nodes whose attributes tell what they stand for. -/
def describedKinds : List NodeKind :=
  [.simpleType, .typeFormerPointer, .comment]

/-- The kinds of nodes that stand for nothing but themselves. -/
def plainKinds : List NodeKind :=
  creatableKinds ++ [.friendship, .typeFormerMethod, .fileSystem]

/-- Classes and methods stand for nothing but themselves, and so do their generic forms. -/
theorem plain_of_widened {kind wider : NodeKind} (widened : widened? kind = some wider) :
    kind ∈ plainKinds ∧ wider ∈ plainKinds := by
  unfold widened? at widened
  split at widened
  · cases widened
    decide
  · cases widened
    decide
  · cases widened

/-- A view of what nodes stand for, which may depend on the edges of nodes of the kinds in `fixed`. -/
structure IsView (fixed : List NodeKind) (view : Node → Option α) : Prop where
  parent : ∀ (n : Node) p, view { n with parent := p } = view n
  edges : ∀ (n : Node) slots, n.kind ∉ fixed → view { n with slots } = view n
  entries : ∀ n m t, view (n.addTarget (entryEdge m) t) = view n
  name : ∀ (n : Node) name, n.kind ≠ .component → view { n with name } = view n
  attributes : ∀ (n : Node) attributes, n.kind ∉ describedKinds →
    Attributes.Suits n.kind n.attributes → Attributes.Suits n.kind attributes →
    view { n with attributes } = view n
  fresh : ∀ id, ∀ kind ∈ plainKinds, view (.fresh id kind) = none
  promote : ∀ n kind, widened? n.kind = some kind → view (n.promote kind) = view n

namespace IsView

variable {fixed : List NodeKind}

/-- A view does not look at names, those of components apart. -/
theorem setName (law : IsView fixed view) {n : Node} (other : n.kind ≠ .component) (key : TextKey) :
    view (n.setName key) = view n := by
  unfold Node.setName
  split
  · exact law.name n key other
  · rfl

/-- A view does not look at edges of nodes of other kinds. -/
theorem mapTargets (law : IsView fixed view) {n : Node} (free : n.kind ∉ fixed) (e : EdgeKind)
    (f : List Target → List Target) : view (n.mapTargets e f) = view n :=
  law.edges n _ free

/-- A view may be said to depend on more kinds than it does. -/
theorem mono (law : IsView fixed view) {more : List NodeKind} (subset : fixed ⊆ more) :
    IsView more view :=
  { law with edges := fun n slots free => law.edges n slots fun mem => free (subset mem) }

end IsView

end Graph

namespace Operation

/-- Whether an operation asks for the node that stands for a value. -/
def asksForValue : Operation → Bool
  | .simpleType _ | .pointerFormer _ | .arrayFormer | .nonTypeFormer | .typeReference _
  | .attributeAccess _ | .methodCall _ | .comment _ | .component _ => true
  | _ => false

/-- Whether an operation asks for the type that is made of some formers. -/
def asksForType : Operation → Bool
  | .buildType _ => true
  | _ => false

/-- Whether an operation neither starts over, nor loads texts, nor chooses an id, and gives nodes only
attributes that suit their kinds. -/
def KeepsRecord (g : Graph) : Operation → Prop
  | .clear | .loadTexts _ | .createNodeWithId _ _ | .load _ _ => False
  | .setAttributes id attributes => ∀ n ∈ g.find? id, Attributes.Suits n.kind attributes
  | _ => True

/-- An operation that keeps the record gives only attributes that suit their kinds. -/
theorem KeepsRecord.describes {g : Graph} {operation : Operation}
    (keeps : operation.KeepsRecord g) : operation.Describes Attributes.Suits g := by
  cases operation with
  | setAttributes id attributes => exact keeps
  | _ => trivial

/-- An operation that keeps the record is an edit. -/
theorem KeepsRecord.isEdit {g : Graph} {operation : Operation} (keeps : operation.KeepsRecord g) :
    operation.IsEdit := by
  cases operation with
  | clear => exact keeps.elim
  | load headers input => exact keeps.elim
  | _ => trivial

/-- Whether the nodes that an operation names and changes show what they showed before. -/
def Unseen {α : Type} (view : Node → Option α) (g : Graph) : Operation → Prop
  | .setName id _ | .setNameKey id _ => ∀ n ∈ g.find? id, ∀ key, view (n.setName key) = view n
  | .setAttributes id attributes => ∀ n ∈ g.find? id, view { n with attributes } = view n
  | .addEdge e source _ | .addValueEdge e source _ _ | .setEdge e source _
  | .removeEdge e source _ => ∀ n ∈ g.find? source, ∀ f, view (n.mapTargets e f) = view n
  | _ => True

/-- Whether an operation neither starts over, nor chooses an id, nor changes what a node stands for:
the names of components, attributes that tell it, and the edges of nodes of the kinds in `fixed`. -/
def Spares (fixed : List NodeKind) (g : Graph) : Operation → Prop
  | .clear | .loadTexts _ | .createNodeWithId _ _ | .load _ _ => False
  | .setName id _ | .setNameKey id _ => ∀ n ∈ g.find? id, n.kind ≠ .component
  | .setAttributes id attributes => ∀ n ∈ g.find? id,
    n.kind ∉ Graph.describedKinds ∧ Attributes.Suits n.kind attributes
  | .addEdge _ source _ | .addValueEdge _ source _ _ | .setEdge _ source _
  | .removeEdge _ source _ => ∀ n ∈ g.find? source, n.kind ∉ fixed
  | _ => True

/-- An operation that spares what nodes stand for keeps the record. -/
theorem Spares.keepsRecord {fixed : List NodeKind} {g : Graph} {operation : Operation}
    (spares : operation.Spares fixed g) : operation.KeepsRecord g := by
  cases operation with
  | clear => exact spares
  | loadTexts input => exact spares
  | createNodeWithId kind id => exact spares
  | load headers input => exact spares
  | setAttributes id attributes => exact fun n found => (spares n found).2
  | _ => trivial

/-- An operation that spares what nodes stand for keeps attributes that suit their kinds. -/
theorem Spares.describes {fixed : List NodeKind} {g : Graph} {operation : Operation}
    (spares : operation.Spares fixed g) : operation.Describes Attributes.Suits g :=
  spares.keepsRecord.describes

/-- An operation that spares what nodes stand for changes no view of it. -/
theorem Spares.unseen {α : Type} {view : Node → Option α} {fixed : List NodeKind} {g : Graph}
    {operation : Operation} (spares : operation.Spares fixed g) (law : Graph.IsView fixed view)
    (suited : g.nodes.Suited) : operation.Unseen view g := by
  cases operation with
  | setName id name | setNameKey id name => exact fun n found => law.setName (spares n found)
  | setAttributes id attributes =>
    intro n found
    exact law.attributes n attributes (spares n found).1 (suited id n found) (spares n found).2
  | addEdge e source target | addValueEdge e source target value | setEdge e source target
  | removeEdge e source target => exact fun n found => law.mapTargets (spares n found) e
  | _ => trivial

end Operation

namespace Graph

variable {α : Type} {view : Node → Option α} {g : Graph}

/-- An operation keeps what nodes show if its successes do. -/
theorem keepsView_orKeep {result : Except Error Graph}
    (succeeds : ∀ h, result = .ok h → KeepsView view g h) :
    KeepsView view g (Outcome.orKeep g result).2 :=
  orKeep_preserves (P := KeepsView view g) (.refl g) succeeds

/-- Changing name or attributes of a node, if it exists, keeps what nodes show if it goes on showing
the same. -/
theorem keepsView_touch {id : NodeId} {f : Node → Node}
    (same : ∀ n ∈ g.find? id, view (f n) = view n) : KeepsView view g (g.touch id f).2 := by
  unfold touch
  split
  · exact keepsView_updateNode same
  · exact .refl g

/-- A change of the filter is not seen. -/
theorem keepsView_filter (filter : Filter) (filterOn : Bool) :
    KeepsView view g { g with filter, filterOn } :=
  (KeepsView.refl g).congr rfl rfl rfl

/-- A change of the filter keeps what nodes show. -/
theorem Refilters.keepsView {h : Graph} (refilters : g.Refilters h) : KeepsView view g h := by
  obtain ⟨filter, rfl⟩ := refilters
  exact keepsView_filter filter g.filterOn

section Law

variable {fixed : List NodeKind} (law : IsView fixed view)

include law

/-- Asking for a file keeps what nodes show. -/
theorem keepsView_createFileFrom (path : String) (start : NodeId) :
    KeepsView view g (g.createFileFrom path start).2 := by
  -- a new entry shows nothing, neither before nor after it gets its name
  have entry : ∀ kind ∈ plainKinds, kind ≠ .component → ∀ h container name, KeepsView view g h →
      KeepsView view g (h.openEntry container name kind).2 := by
    intro kind plain other h container name kept
    have fresh : ∀ id, view (.fresh id kind) = none := fun id => law.fresh id kind plain
    have named : ∀ id key, view ((Node.fresh id kind).setName key) = none :=
      fun id key => (law.setName (n := .fresh id kind) other key).trans (fresh id)
    exact kept.trans (keepsView_openEntry law.parent fresh named law.entries h container name)
  exact createFileFrom_preserves (P := KeepsView view g) (entry .folder (by decide) (by decide))
    (entry .file (by decide) (by decide)) g path start (.refl g)

/-- An operation keeps every view that it changes nothing of, if it asks for no node that stands for
something. -/
theorem keepsView_perform {operation : Operation} (keeps : operation.KeepsRecord g)
    (unseen : operation.Unseen view g) (noValue : operation.asksForValue = false)
    (noType : operation.asksForType = false) : KeepsView view g (operation.perform g).2 := by
  rw [Operation.perform_eq]
  cases operation with
  | clear => exact keeps.elim
  | loadTexts input => exact keeps.elim
  | createNodeWithId kind id => exact keeps.elim
  | load headers input => exact keeps.elim
  | simpleType | pointerFormer | arrayFormer | nonTypeFormer | typeReference | attributeAccess
  | methodCall | comment | component => cases noValue
  | buildType stack => cases noType
  | setLanguage language => exact (KeepsView.refl g).congr rfl rfl rfl
  | intern text => exact keepsView_intern g text
  | createNode kind =>
    refine nodeOrKeep_preserves (P := KeepsView view g) (.refl g) fun id h created => ?_
    obtain ⟨creatable, made⟩ := withNode_eq_ok created
    cases made
    exact keepsView_newNode g (law.fresh _ kind (List.mem_append_left _ creatable))
  | replaceNode id kind =>
    apply keepsView_orKeep
    intro h replaced
    obtain ⟨n, found, wider, rfl⟩ := withKind_eq_ok replaced
    refine keepsView_updateNode fun m here => ?_
    cases found.symm.trans here
    exact law.promote n kind wider
  | methodFormer => exact keepsView_newNode g (law.fresh _ _ (by decide))
  | friendship grantee =>
    have fresh : ∀ id, view (.fresh id .friendship) = none :=
      fun id => law.fresh id .friendship (by decide)
    have described : ∀ id key,
        view { Node.fresh id .friendship with attributes := .friendship key } = none := by
      intro id key
      have other : (Node.fresh id .friendship).kind ∉ describedKinds := by
        change NodeKind.friendship ∉ describedKinds
        decide
      exact (law.attributes (.fresh id .friendship) (.friendship key) other
        (.friendship .empty .empty) (.friendship .empty key)).trans (fresh id)
    exact (keepsView_intern g grantee).trans (keepsView_newNodeWith _ (fresh _) (described _ _))
  | createFile path => exact keepsView_createFileFrom law path g.fileSystem
  | createFileFrom path start => exact keepsView_createFileFrom law path start
  | setName id name =>
    apply keepsView_orKeep
    intro h named
    rw [withName_eq_ok named]
    exact (keepsView_intern g name).trans (keepsView_updateNode fun n found => unseen n found _)
  | setNameKey id name => exact keepsView_touch fun n found => unseen n found name
  | setAttributes id attributes => exact keepsView_touch unseen
  | addEdge e source target =>
    exact keepsView_orKeep fun h added =>
      keepsView_withEdge law.parent (fun n found _ => unseen n found _) added
  | addValueEdge e source target value =>
    apply keepsView_orKeep
    intro h added
    obtain ⟨-, rfl⟩ := withValueEdge_eq_ok added
    exact keepsView_link law.parent fun n found => unseen n found _
  | setEdge e source target =>
    exact keepsView_orKeep fun h done =>
      keepsView_withSingle law.parent (fun n found _ => unseen n found _)
        (fun n found _ => unseen n found _) done
  | removeEdge e source target =>
    exact flagOrKeep_preserves (P := KeepsView view g) (.refl g) fun removed h done =>
      keepsView_withoutEdge law.parent (fun n found => unseen n found _) done
  | buildIndex selector =>
    change KeepsView view g (g.withIndex selector).2
    rcases snd_withIndex g selector with same | built
    · rw [same]
      exact .refl g
    · rw [built]
      exact (KeepsView.refl g).congr rfl rfl rfl
  | turnFilterOn => exact keepsView_filter g.filter true
  | turnFilterOff => exact keepsView_filter g.filter false
  | hide id => exact keepsView_orKeep fun h hidden => (refilters_withHidden hidden).keepsView
  | reveal id => exact keepsView_filter _ g.filterOn
  | hideOnly id => exact keepsView_orKeep fun h hidden => (refilters_withState hidden).keepsView
  | revealOnly id => exact keepsView_orKeep fun h shown => (refilters_withState shown).keepsView
  | resetFilter => exact keepsView_filter _ g.filterOn
  | loadFilter input => exact keepsView_orKeep fun h loaded => (refilters_map loaded).keepsView

end Law

end Graph

end CodeGraph
