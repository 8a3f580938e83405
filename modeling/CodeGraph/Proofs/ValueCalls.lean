import CodeGraph.Proofs.Typing
import CodeGraph.Proofs.ValueRecord

/-!
# Calls for values that succeed and calls that fail

A call for a node that points to others checks them before it makes anything. What it does then,
with a new node in place, is checked again edge by edge, and a refusal there would leave the new
node behind. Main statements: `referenceNode_eq_error` and `buildType_eq_error`, no such refusal
happens while ids last, so a call that fails leaves the graph as it was; `exists_referenceNode` and
`exists_buildType`, calls whose nodes are there succeed.
-/

set_option autoImplicit false

namespace CodeGraph

namespace Graph

variable {g h : Graph}

/-! ## Checks -/

/-- A target that exists and is of the right kind is not refused. -/
theorem checkTarget_of_has {e : EdgeKind} {target : NodeId} (has : g.nodes.Has target e.target)
    (site : Site) : g.checkTarget site e target = .ok () := by
  obtain ⟨n, found, right⟩ := has
  have found : g.find? target = some n := found
  unfold checkTarget
  rw [found]
  exact if_pos right

/-- A target that is not refused exists and is of the right kind. -/
theorem has_of_checkTarget {site : Site} {e : EdgeKind} {target : NodeId}
    (checked : g.checkTarget site e target = .ok ()) : g.nodes.Has target e.target := by
  unfold checkTarget at checked
  split at checked
  · cases checked
  · next n found =>
    split at checked
    · next right => exact ⟨n, found, right⟩
    · cases checked

/-- Every node is of the most general kind. -/
theorem has_base {id : NodeId} {n : Node} (found : g.find? id = some n) : g.nodes.Has id .base :=
  ⟨n, found, by
    unfold Node.is
    cases n.kind <;> rfl⟩

/-- Formers that exist are not refused. -/
theorem checkFormers_of_has (formers : List NodeId)
    (ready : ∀ former ∈ formers, g.nodes.Has former .typeFormer) :
    g.checkFormers formers = .ok () := by
  induction formers with
  | nil => rfl
  | cons former formers ih =>
    obtain ⟨⟨n, found, right⟩, others⟩ := List.forall_mem_cons.1 ready
    have found : g.find? former = some n := found
    unfold checkFormers
    rw [found]
    simp only [right, if_true]
    exact ih others

/-- Formers that are not refused exist. -/
theorem has_of_checkFormers (formers : List NodeId) (checked : g.checkFormers formers = .ok ()) :
    ∀ former ∈ formers, g.nodes.Has former .typeFormer := by
  induction formers with
  | nil => exact fun _ mem => absurd mem List.not_mem_nil
  | cons former formers ih =>
    unfold checkFormers at checked
    split at checked
    · cases checked
    · next n found =>
      split at checked
      · next right => exact List.forall_mem_cons.2 ⟨⟨n, found, right⟩, ih checked⟩
      · cases checked

/-! ## References -/

/-- A node with an edge to another is made while ids last, if the other one fits. -/
theorem exists_newNodeTo (room : g.size < idLimit) {kind : NodeKind} {e : EdgeKind}
    (single : e.isSingle = true) (has : e ∈ kind.edgeKinds) {target : Option NodeId}
    (ready : ∀ t ∈ target, g.nodes.Has t e.target) :
    ∃ id h, g.newNodeTo kind e target = (.ok id, h) := by
  cases target with
  | none => exact ⟨_, _, newNodeTo_none g kind single⟩
  | some t =>
    obtain ⟨m, found, right⟩ := ready t rfl
    have other : t ≠ g.nextId := by
      rintro rfl
      cases found.symm.trans (nextId_fresh room).2
    have accepts : (g.insertNode kind g.nextId).Accepts e g.nextId ⟨t, none⟩ := by
      refine ⟨⟨.fresh g.nextId kind, ?_, ?_⟩, ⟨m, ?_, right⟩, ?_⟩
      · rw [find?_insertNode, if_pos rfl]
      · rw [Node.edgeKinds_fresh]
        exact has
      · rw [find?_insertNode, if_neg other]
        exact found
      · exact (EdgeKind.carries_of_isSingle single).symm
    exact ⟨_, _, newNodeTo_linked single (checkEdge_of_accepts accepts .setEdge)⟩

/-- A reference is given while ids last, if what it refers to fits. -/
theorem exists_referenceNode (room : g.size < idLimit) (key : SingletonKey) {kind : NodeKind}
    {e : EdgeKind} (single : e.isSingle = true) (has : e ∈ kind.edgeKinds) {target : Option NodeId}
    (ready : ∀ t ∈ target, g.nodes.Has t e.target) :
    ∃ id h, g.referenceNode key kind e target (.ok ()) = (.ok id, h) := by
  obtain ⟨id, h, new⟩ := exists_newNodeTo room single has ready
  unfold referenceNode
  cases g.singleton? key with
  | some id => exact ⟨_, _, rfl⟩
  | none =>
    simp only [new]
    exact ⟨_, _, rfl⟩

/-- A call for a reference fails in its own check or not at all. -/
theorem referenceNode_eq_error (room : g.size < idLimit) {key : SingletonKey} {kind : NodeKind}
    {e : EdgeKind} (single : e.isSingle = true) (has : e ∈ kind.edgeKinds) {target : Option NodeId}
    {check : Except Error Unit} (checks : check = .ok () → ∀ t ∈ target, g.nodes.Has t e.target)
    {cause : Error} (failed : g.referenceNode key kind e target check = (.error cause, h)) :
    h = g := by
  cases check with
  | error refusal =>
    unfold referenceNode at failed
    split at failed <;> cases failed
    rfl
  | ok passed =>
    obtain ⟨id, made, succeeds⟩ := exists_referenceNode room key single has (checks rfl)
    cases failed.symm.trans succeeds

/-- A reference of a type former changes nothing if it is refused. -/
theorem typeReference_eq_error (room : g.size < idLimit) {refersTo : Option NodeId} {cause : Error}
    (failed : g.typeReference refersTo = (.error cause, h)) : h = g := by
  refine referenceNode_eq_error room rfl (by decide) ?_ failed
  intro checked t mem
  cases mem
  cases found : g.find? t with
  | none =>
    simp only [node, found] at checked
    cases checked
  | some n => exact has_base found

/-- An access to an attribute changes nothing if it is refused. -/
theorem attributeAccess_eq_error (room : g.size < idLimit) {accessed : NodeId} {cause : Error}
    (failed : g.attributeAccess accessed = (.error cause, h)) : h = g := by
  refine referenceNode_eq_error room rfl (by decide) ?_ failed
  intro checked t mem
  cases mem
  exact has_of_checkTarget checked

/-- A call of a method changes nothing if it is refused. -/
theorem methodCall_eq_error (room : g.size < idLimit) {method : NodeId} {cause : Error}
    (failed : g.methodCall method = (.error cause, h)) : h = g := by
  refine referenceNode_eq_error room rfl (by decide) ?_ failed
  intro checked t mem
  cases mem
  exact has_of_checkTarget checked

/-! ## Types -/

/-- Edges that carry nothing are added one by one, if their source has a slot for them and their
targets fit. -/
theorem exists_addEdges {e : EdgeKind} (cross : e.isContainment = false)
    (plain : e.carries = .nothing) {source : NodeId} (targets : List NodeId) {g : Graph}
    (start : ∃ n, g.find? source = some n ∧ e ∈ n.edgeKinds)
    (ready : ∀ target ∈ targets, g.nodes.Has target e.target) :
    ∃ h, g.addEdges e source targets = (.ok (), h) := by
  simp only [addEdges_eq]
  induction targets generalizing g with
  | nil => exact ⟨g, rfl⟩
  | cons target targets ih =>
    obtain ⟨first, others⟩ := List.forall_mem_cons.1 ready
    have accepts : g.Accepts e source ⟨target, none⟩ := ⟨start, first, plain.symm⟩
    have nodes : (g.link e source { id := target }).nodes =
        g.nodes.update source fun n => n.addTarget e { id := target } := by
      rw [nodes_link, cross, if_neg Bool.false_ne_true]
    obtain ⟨n, found, has⟩ := start
    have again : ∃ m, (g.link e source { id := target }).find? source = some m ∧
        e ∈ m.edgeKinds := by
      refine ⟨n.addTarget e { id := target }, ?_, ?_⟩
      · rw [find?_link_cross cross, if_pos rfl, found]
        rfl
      · unfold Node.addTarget
        rw [Node.edgeKinds_mapTargets]
        exact has
    have rest : ∀ t ∈ targets, (g.link e source { id := target }).nodes.Has t e.target := by
      intro t mem
      rw [nodes]
      exact (others t mem).update fun _ _ right => right
    obtain ⟨h, added⟩ := ih again rest
    refine ⟨h, ?_⟩
    unfold withEdges withEdge
    rw [checkEdge_of_accepts accepts]
    exact added

/-- A new type gets edges to its formers while ids last, if these exist. -/
theorem exists_newType (room : g.size < idLimit) (formers : List NodeId)
    (ready : ∀ former ∈ formers, g.nodes.Has former .typeFormer) :
    ∃ h, (g.newNode .type).2.addEdges .typeHasTypeFormer (g.newNode .type).1 formers =
      (.ok (), h) := by
  have find : ∀ other, (g.newNode .type).2.find? other =
      if other = g.nextId then some (.fresh g.nextId .type) else g.find? other :=
    find?_insertNode g .type g.nextId
  refine exists_addEdges rfl rfl formers ⟨.fresh g.nextId .type, ?_, ?_⟩ fun former mem => ?_
  · exact (find g.nextId).trans (if_pos rfl)
  · rw [Node.edgeKinds_fresh]
    decide
  · obtain ⟨n, found, right⟩ := ready former mem
    have other : former ≠ g.nextId := by
      rintro rfl
      cases found.symm.trans (nextId_fresh room).2
    exact ⟨n, ((find former).trans (if_neg other)).trans found, right⟩

/-- A type is given while ids last, if there are formers and all of them exist. -/
theorem exists_buildType (room : g.size < idLimit) {stack : List NodeId} (nonempty : stack ≠ [])
    (ready : ∀ former ∈ stack, g.nodes.Has former .typeFormer) :
    ∃ id h, g.buildType stack = (.ok id, h) := by
  have roomy : (g.intern (typeText stack.reverse)).2.size < idLimit := room
  obtain ⟨linked, added⟩ := exists_newType roomy stack.reverse fun former mem =>
    ready former (List.mem_reverse.1 mem)
  unfold buildType
  rw [if_neg (by simpa using nonempty), checkFormers_of_has stack ready]
  simp only
  cases (g.intern (typeText stack.reverse)).2.singleton? _ with
  | some id => exact ⟨_, _, rfl⟩
  | none =>
    simp only [added]
    exact ⟨_, _, rfl⟩

/-- A call for a type fails before its text is kept or not at all. -/
theorem buildType_eq_error (room : g.size < idLimit) {stack : List NodeId} {cause : Error}
    (failed : g.buildType stack = (.error cause, h)) : h = g := by
  by_cases nonempty : stack = []
  · subst nonempty
    cases failed
    rfl
  · cases checked : g.checkFormers stack with
    | error refusal =>
      unfold buildType at failed
      rw [if_neg (by simpa using nonempty), checked] at failed
      cases failed
      rfl
    | ok passed =>
      obtain ⟨id, made, succeeds⟩ :=
        exists_buildType room nonempty (has_of_checkFormers stack checked)
      cases failed.symm.trans succeeds

end Graph

end CodeGraph
