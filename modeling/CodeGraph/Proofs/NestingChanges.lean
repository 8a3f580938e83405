import CodeGraph.Proofs.Entries
import CodeGraph.Proofs.Loading
import CodeGraph.Proofs.Nesting

/-!
# What operations do to the nesting

Hardly any operation touches the nesting of a graph. Those that make nodes add nodes on their own, or
new files and folders below nodes that exist; besides these only adding and taking away containment
edges changes it. Main statements: `nests_perform`, what one operation does to the nesting, and
`Along.nests`, which carries an invariant of nestings along a history.
-/

set_option autoImplicit false

namespace CodeGraph

open Relation

namespace Graph

/-- The nesting of the nodes of a graph. -/
def nesting (g : Graph) : Nesting :=
  g.nodes.nesting

/-- One graph comes from another by making nodes, on their own or below others, while ids last. -/
structure Grows (g h : Graph) : Prop where
  size : g.size ≤ h.size
  nesting : h.size < idLimit → ReflTransGen Nesting.Grow g.nesting h.nesting

variable {g h k : Graph}

/-- Graphs with the same nodes have the same nesting. -/
theorem nesting_congr (same : h.nodes = g.nodes) : h.nesting = g.nesting :=
  congrArg NodeTable.nesting same

namespace Grows

/-- A change that leaves the nesting alone makes no nodes. -/
theorem of_nesting (run : EditRun (fun _ _ => True) g h) (same : h.nesting = g.nesting) :
    Grows g h :=
  ⟨run.size_le, fun _ => same ▸ .refl⟩

/-- A graph with the same nodes has grown by none. -/
theorem of_nodes (same : h.nodes = g.nodes) : Grows g h :=
  ⟨Nat.le_of_eq (congrArg NodeTable.size same).symm, fun _ => nesting_congr same ▸ .refl⟩

/-- A graph has grown from itself by none. -/
theorem refl (g : Graph) : Grows g g :=
  of_nodes rfl

/-- A graph may grow twice. -/
theorem trans (first : Grows g h) (second : Grows h k) : Grows g k where
  size := Nat.le_trans first.size second.size
  nesting room :=
    (first.nesting (Nat.lt_of_le_of_lt second.size room)).trans (second.nesting room)

end Grows

/-! ## Edges -/

/-- Edges that contain nothing are not part of the nesting. -/
theorem nesting_link {e : EdgeKind} (cross : e.isContainment = false) (source : NodeId)
    (t : Target) : (g.link e source t).nesting = g.nesting := by
  unfold nesting
  rw [nodes_link, if_neg (by simp [cross])]
  apply NodeTable.nesting_update
  · intro n _
    rfl
  · intro n _ k
    exact n.holds_mapTargets (fun _ => cross) _

/-- Linking a containment edge puts it into the nesting. -/
theorem nesting_link_contains {e : EdgeKind} (contains : e.isContainment = true)
    {source : NodeId} {t : Target} (accepts : g.Accepts e source t) :
    (g.link e source t).nesting = g.nesting.put e source t.id := by
  obtain ⟨⟨n, found, has⟩, ⟨far, there, -⟩, -⟩ := accepts
  unfold nesting
  rw [nodes_link, if_pos contains]
  exact NodeTable.nesting_put contains found has there

/-- An edge that is added is seen in the nesting if it contains its far end. -/
theorem nesting_withEdge {e : EdgeKind} {source target : NodeId}
    (added : g.withEdge e source target = .ok h) :
    g.Accepts e source { id := target } ∧
      h.nesting = if e.isContainment then g.nesting.put e source target else g.nesting := by
  obtain ⟨accepts, rfl⟩ := withEdge_eq_ok added
  refine ⟨accepts, ?_⟩
  split
  · next contains => exact nesting_link_contains contains accepts
  · next cross => exact nesting_link (Bool.eq_false_iff.2 cross) source _

/-- No edge with a value contains its far end. -/
theorem nesting_withValueEdge {e : EdgeKind} {source target : NodeId} {value : EdgeValue}
    (added : g.withValueEdge e source target value = .ok h) : h.nesting = g.nesting := by
  obtain ⟨accepts, rfl⟩ := withValueEdge_eq_ok added
  have carries := accepts.value
  have cross : e.isContainment = false := by
    by_contra contains
    rw [EdgeKind.carries_of_isContainment (Bool.not_eq_false _ ▸ contains)] at carries
    cases value <;> cases carries
  exact nesting_link cross source _

/-- Taking away a containment edge takes it out of the nesting. -/
theorem nesting_sever {e : EdgeKind} (contains : e.isContainment = true) {source target : NodeId}
    (lists : g.nodes.Lists e source target) :
    ((g.updateNode source fun n => n.removeTarget e target).unlink e source target).nesting =
      g.nesting.take e source target := by
  obtain ⟨n, found, far, mem, -⟩ := lists
  obtain ⟨s, slot, kind, -⟩ := Node.exists_slot_of_mem_targets mem
  have has : e ∈ n.edgeKinds := kind ▸ List.mem_map_of_mem slot
  unfold nesting
  rw [nodes_unlink, nodes_updateNode, if_pos contains]
  exact NodeTable.nesting_take contains found has

/-- A node points to an id if it lists it. -/
theorem pointsTo_iff {e : EdgeKind} {source target : NodeId} {n : Node}
    (found : g.find? source = some n) :
    n.pointsTo e target = true ↔ g.nodes.Lists e source target := by
  have here : g.nodes.find? source = some n := found
  unfold Node.pointsTo NodeTable.Lists
  simp [here]

/-- Taking an edge away is seen in the nesting if there was one and it contained its far end. -/
theorem nesting_withoutEdge {e : EdgeKind} {source target : NodeId} {removed : Bool}
    (done : g.withoutEdge e source target = .ok (removed, h)) :
    h.nesting = g.nesting ∨ e.isContainment = true ∧ g.nodes.Lists e source target ∧
      h.nesting = g.nesting.take e source target := by
  obtain rfl | ⟨n, found, points, rfl⟩ := withoutEdge_eq_ok done
  · exact Or.inl rfl
  · by_cases contains : e.isContainment = true
    · have lists := (pointsTo_iff found).1 points
      exact Or.inr ⟨contains, lists, nesting_sever contains lists⟩
    · unfold nesting
      rw [nodes_unlink, nodes_updateNode, if_neg contains]
      refine Or.inl (NodeTable.nesting_update ?_ ?_)
      · intro n _
        rfl
      · intro n _ k
        exact n.holds_mapTargets (fun _ => Bool.eq_false_iff.2 contains) _

/-- Kinds that allow only one edge contain nothing. -/
theorem nesting_withSingle {e : EdgeKind} {source : NodeId} {target : Option NodeId}
    (done : g.withSingle e source target = .ok h) : h.nesting = g.nesting := by
  obtain ⟨single, changes⟩ := withSingle_eq_ok done
  have cross := EdgeKind.isContainment_of_isSingle single
  obtain rfl | ⟨t, -, rfl⟩ | ⟨previous, removed, gone⟩ := changes
  · rfl
  · exact nesting_link cross source _
  · rcases nesting_withoutEdge gone with same | ⟨contains, -⟩
    · exact same
    · exact absurd (contains.symm.trans cross) (by decide)

/-- Adding edges that do not contain keeps the nesting. -/
theorem nesting_addEdges {e : EdgeKind} (cross : e.isContainment = false) {source : NodeId}
    (targets : List NodeId) (g : Graph) : (g.addEdges e source targets).2.nesting = g.nesting := by
  rw [addEdges_eq]
  induction targets generalizing g with
  | nil => rfl
  | cons target targets ih =>
    unfold withEdges
    split
    · rfl
    · next first =>
      have one := (nesting_withEdge first).2
      rw [if_neg (by simp [cross])] at one
      exact (ih _).trans one

/-! ## Nodes -/

/-- A new node stands on its own. -/
theorem nesting_insertNode {id : NodeId} (hole : g.find? id = none) (kind : NodeKind) :
    (g.insertNode kind id).nesting = g.nesting.make id :=
  NodeTable.nesting_insert hole kind

/-- The nesting has the ids of the nodes. -/
theorem has_nesting {id : NodeId} : g.nesting.has id = (g.find? id).isSome :=
  rfl

/-- An id without a node is unused in the nesting. -/
theorem unused_of_hole {id : NodeId} (hole : g.find? id = none) : g.nesting.has id = false := by
  rw [has_nesting, hole]
  rfl

/-- Other names and attributes keep the nesting. -/
theorem nesting_touch {id : NodeId} {f : Node → Node}
    (cosmetic : ∀ n, g.find? id = some n → Cosmetic (fun _ _ => True) n (f n)) :
    (g.updateNode id f).nesting = g.nesting := by
  apply NodeTable.nesting_update
  · intro n found
    rw [(cosmetic n found).rest]
  · intro n found e
    rw [(cosmetic n found).rest]
    rfl

/-- Changing name or attributes of a node, if it exists, keeps the nesting. -/
theorem nesting_touchIfFound {id : NodeId} {f : Node → Node}
    (cosmetic : ∀ n, g.find? id = some n → Cosmetic (fun _ _ => True) n (f n)) :
    (g.touch id f).2.nesting = g.nesting := by
  unfold touch
  split
  · exact nesting_touch cosmetic
  · rfl

/-- A new node with a name or attributes stands on its own. -/
theorem nesting_newNodeWith {kind : NodeKind} {f : Node → Node}
    (cosmetic : Cosmetic (fun _ _ => True) (.fresh g.nextId kind) (f (.fresh g.nextId kind)))
    (hole : g.find? g.nextId = none) :
    (g.newNodeWith kind f).2.nesting = g.nesting.make g.nextId := by
  unfold newNodeWith
  refine (nesting_touch fun n found => ?_).trans (nesting_insertNode hole kind)
  rw [find?_insertNode, if_pos rfl] at found
  cases found
  exact cosmetic

/-- A node with the next new id, while ids last. -/
theorem Grows.of_make (size : g.size ≤ h.size)
    (made : g.find? g.nextId = none → h.nesting = g.nesting.make g.nextId) : Grows g h := by
  refine ⟨size, fun room => ?_⟩
  have hole := (nextId_fresh (Nat.lt_of_le_of_lt size room)).2
  rw [made hole]
  exact ReflTransGen.single (.make (unused_of_hole hole))

/-- Making a node makes a graph grow. -/
theorem grows_newNode (g : Graph) (kind : NodeKind) : Grows g (g.newNode kind).2 := by
  refine .of_make ?_ fun hole => nesting_insertNode hole kind
  unfold newNode
  rw [size_insertNode]
  exact Nat.le_max_left _ _

/-- Making a node with a name or attributes makes a graph grow. -/
theorem grows_newNodeWith (g : Graph) {kind : NodeKind} {f : Node → Node}
    (cosmetic : ∀ id, Cosmetic (fun _ _ => True) (.fresh id kind) (f (.fresh id kind))) :
    Grows g (g.newNodeWith kind f).2 := by
  refine .of_make ?_ fun hole => nesting_newNodeWith (cosmetic _) hole
  unfold newNodeWith
  rw [size_updateNode, size_insertNode]
  exact Nat.le_max_left _ _

/-- Remembering what a node stands for makes no nodes. -/
theorem grows_remember (g : Graph) (key : SingletonKey) (id : NodeId) :
    Grows g (g.remember key id) :=
  .of_nodes (g.nodes_remember key id)

/-- Interning makes no nodes. -/
theorem grows_intern (g : Graph) (s : String) : Grows g (g.intern s).2 :=
  .of_nodes rfl

/-- Asking for the node of a value makes one at most. -/
theorem grows_singletonNode (g : Graph) (key : SingletonKey) {kind : NodeKind} {f : Node → Node}
    (cosmetic : ∀ id, Cosmetic (fun _ _ => True) (.fresh id kind) (f (.fresh id kind))) :
    Grows g (g.singletonNode key kind f).2 := by
  unfold singletonNode
  split
  · exact .refl g
  · exact (grows_newNodeWith g cosmetic).trans (grows_remember _ key _)

/-- Making a node with an edge to another makes a graph grow, also if the edge is refused. -/
theorem grows_newNodeTo (g : Graph) (kind : NodeKind) (e : EdgeKind) (target : Option NodeId) :
    Grows g (g.newNodeTo kind e target).2 := by
  rw [newNodeTo_eq]
  unfold withNodeTo
  simp only
  split
  · exact grows_newNode g kind
  · next linked =>
    exact (grows_newNode g kind).trans (.of_nesting (edits_withSingle linked) (nesting_withSingle linked))

/-- Asking for a reference makes one at most. -/
theorem grows_referenceNode (g : Graph) (key : SingletonKey) (kind : NodeKind) (e : EdgeKind)
    (target : Option NodeId) (check : Except Error Unit) :
    Grows g (g.referenceNode key kind e target check).2 :=
  referenceNode_preserves (P := Grows g) (.refl g) (grows_newNodeTo g kind e target)
    fun h id grows => grows.trans (grows_remember h key id)

/-- Building a type makes one at most. -/
theorem grows_buildType (g : Graph) (stack : List NodeId) : Grows g (g.buildType stack).2 := by
  have interned := g.grows_intern (typeText stack.reverse)
  refine buildType_preserves (P := Grows g) (.refl g) interned (fun id => ?_)
    fun h key id grows => grows.trans (grows_remember h key id)
  exact (interned.trans (grows_newNode _ .type)).trans
    (.of_nesting (edits_addEdges stack.reverse _) (nesting_addEdges (by decide) stack.reverse _))

/-! ## Files and folders -/

/-- A node that is made and then put below one that exists. -/
theorem grows_enter {kind : NodeKind} {f : Node → Node} {e : EdgeKind} {container : NodeId}
    {holder : Node} (cosmetic : ∀ id, Cosmetic (fun _ _ => True) (.fresh id kind) (f (.fresh id kind)))
    (contains : e.isContainment = true) (found : g.find? container = some holder)
    (added : (g.newNodeWith kind f).2.withEdge e container g.nextId = .ok h) : Grows g h := by
  have made := grows_newNodeWith g cosmetic
  have run : EditRun (fun _ _ => True) (g.newNodeWith kind f).2 h := edits_withEdge added
  have size : g.size ≤ h.size := Nat.le_trans made.size run.size_le
  refine ⟨size, fun room => ?_⟩
  have hole := (nextId_fresh (Nat.lt_of_le_of_lt size room)).2
  have below := (nesting_withEdge added).2
  rw [if_pos contains, nesting_newNodeWith (cosmetic _) hole] at below
  rw [below]
  refine ReflTransGen.single (.enter (unused_of_hole hole) ?_)
  rw [has_nesting, found]
  rfl

/-- A new entry is a node below its container, or on its own if the container refuses it. -/
theorem grows_openEntry (g : Graph) (container : NodeId) (name : String) (kind : NodeKind) :
    Grows g (g.openEntry container name kind).2 := by
  have cosmetic : ∀ id, Cosmetic (fun _ _ => True) (Node.fresh id kind)
      ((Node.fresh id kind).setName (g.intern name).1) :=
    fun id => cosmetic_setName (.fresh id kind) _
  rw [openEntry_eq]
  unfold withEntry
  split
  · exact .refl g
  · next holder found =>
    split
    · exact .refl g
    · simp only
      split
      · exact (g.grows_intern name).trans (grows_newNodeWith _ cosmetic)
      · next added =>
        exact (g.grows_intern name).trans
          (grows_enter cosmetic (isContainment_entryEdge holder) found added)

/-- Asking for a file makes a graph grow, by folders and maybe a file. -/
theorem grows_createFileFrom (g : Graph) (path : String) (start : NodeId) :
    Grows g (g.createFileFrom path start).2 :=
  createFileFrom_preserves (P := Grows g)
    (fun h container name grows => grows.trans (grows_openEntry h container name .folder))
    (fun h container name grows => grows.trans (grows_openEntry h container name .file)) g path start
    (.refl g)

/-! ## Operations -/

end Graph

namespace Operation

/-- Whether an operation gives nodes that it makes the next new ids. -/
def takesIds : Operation → Bool
  | .createNode _ | .simpleType _ | .pointerFormer _ | .arrayFormer | .nonTypeFormer
  | .typeReference _ | .methodFormer | .attributeAccess _ | .methodCall _ | .comment _ | .component _
  | .friendship _ | .buildType _ | .createFile _ | .createFileFrom _ _ => true
  | _ => false

/-- Ids last for an operation: if it takes new ones, it leaves one that is unused. -/
def IdsLast (g : Graph) (operation : Operation) : Prop :=
  operation.takesIds = true → (operation.perform g).2.size < Graph.idLimit

instance (g : Graph) (operation : Operation) : Decidable (operation.IdsLast g) :=
  inferInstanceAs (Decidable (_ → _))

end Operation

namespace Graph

variable {g : Graph}

/-- What an operation other than clearing and loading may do to the nesting of a graph. -/
inductive Nests (g : Graph) : Operation → Nesting → Prop
  /-- Nodes are made, perhaps none. -/
  | grow {operation : Operation} {v : Nesting} (run : ReflTransGen Nesting.Grow g.nesting v) :
      Nests g operation v
  | put {e : EdgeKind} {source target : NodeId} (contains : e.isContainment = true)
      (accepts : g.Accepts e source { id := target }) :
      Nests g (.addEdge e source target) (g.nesting.put e source target)
  | take {e : EdgeKind} {source target : NodeId} (contains : e.isContainment = true)
      (lists : g.nodes.Lists e source target) :
      Nests g (.removeEdge e source target) (g.nesting.take e source target)

/-- Any operation may keep the nesting. -/
theorem Nests.of_nesting {operation : Operation} {v : Nesting} (same : v = g.nesting) :
    Nests g operation v :=
  .grow (same ▸ .refl)

/-- What an operation does to the nesting is what its successes do, or nothing. -/
theorem nests_orKeep {operation : Operation} {result : Except Error Graph}
    (succeeds : ∀ h, result = .ok h → Nests g operation h.nesting) :
    Nests g operation (Outcome.orKeep g result).2.nesting :=
  orKeep_preserves (P := fun h => Nests g operation h.nesting) (.of_nesting rfl) succeeds

/-- Operations that take new ids make nodes and do nothing else to the nesting. -/
theorem grows_perform {operation : Operation} (takes : operation.takesIds = true) :
    Grows g (operation.perform g).2 := by
  have free : ∀ (n : Node) attributes, Cosmetic (fun _ _ => True) n { n with attributes } :=
    fun _ _ => cosmetic_describe trivial
  rw [Operation.perform_eq]
  cases operation with
  | createNode kind =>
    refine nodeOrKeep_preserves (P := Grows g) (.refl g) fun id h created => ?_
    obtain ⟨-, made⟩ := withNode_eq_ok created
    cases made
    exact grows_newNode g kind
  | simpleType kind => exact grows_singletonNode g _ fun id => free _ _
  | pointerFormer kind => exact grows_singletonNode g _ fun id => free _ _
  | arrayFormer => exact grows_singletonNode g _ fun id => .refl _
  | nonTypeFormer => exact grows_singletonNode g _ fun id => .refl _
  | typeReference refersTo => exact grows_referenceNode g _ _ _ _ _
  | methodFormer => exact grows_newNode g _
  | attributeAccess accessed => exact grows_referenceNode g _ _ _ _ _
  | methodCall method => exact grows_referenceNode g _ _ _ _ _
  | comment text =>
    exact (g.grows_intern text).trans (grows_singletonNode _ _ fun id => free _ _)
  | component name =>
    exact (g.grows_intern name).trans (grows_singletonNode _ _ fun id => cosmetic_setName _ _)
  | friendship grantee =>
    exact (g.grows_intern grantee).trans (grows_newNodeWith _ fun id => free _ _)
  | buildType stack => exact grows_buildType g stack
  | createFile path => exact grows_createFileFrom g path g.fileSystem
  | createFileFrom path start => exact grows_createFileFrom g path start
  | _ => cases takes

/-- Replacing a node by one of a wider kind keeps the nesting. -/
theorem nesting_widen {id : NodeId} {kind : NodeKind} {n : Node} (wf : g.nodes.WellFormed)
    (found : g.find? id = some n) (wider : widened? n.kind = some kind) :
    (g.updateNode id fun n => n.promote kind).nesting = g.nesting := by
  obtain ⟨-, -, -, more, -⟩ := widened?_spec wider
  apply NodeTable.nesting_update
  · intro m _
    rfl
  · intro m here e
    cases found.symm.trans here
    unfold Node.holds
    rw [Node.targets_promote ((wf id n found).kinds ▸ more)]

/-- A change of the filter keeps the nesting. -/
theorem Refilters.nests {h : Graph} (refilters : g.Refilters h) (operation : Operation) :
    Nests g operation h.nesting := by
  obtain ⟨filter, rfl⟩ := refilters
  exact .of_nesting rfl

/-- What an operation does to the nesting of a graph of well-formed nodes while ids last. -/
theorem nests_perform (wf : g.nodes.WellFormed) {operation : Operation} (isEdit : operation.IsEdit)
    (last : operation.IdsLast g) : Nests g operation (operation.perform g).2.nesting := by
  by_cases takes : operation.takesIds = true
  · exact .grow ((grows_perform takes).nesting (last takes))
  rw [Operation.perform_eq]
  cases operation with
  | clear => exact isEdit.elim
  | load headers input => exact isEdit.elim
  | createNode | simpleType | pointerFormer | arrayFormer | nonTypeFormer | typeReference
  | methodFormer | attributeAccess | methodCall | comment | component | friendship | buildType
  | createFile | createFileFrom => exact absurd rfl takes
  | setLanguage language => exact .of_nesting rfl
  | intern text => exact .of_nesting rfl
  | loadTexts input => exact .of_nesting rfl
  | createNodeWithId kind id =>
    change Nests g _ (Outcome.nodeOrKeep g _).2.nesting
    cases result : g.withNodeAt kind id with
    | error cause => exact .of_nesting rfl
    | ok next =>
      obtain ⟨-, -, hole, rfl⟩ := withNodeAt_eq_ok result
      refine .grow ?_
      have made : (g.insertNode kind id).nesting = g.nesting.make id := nesting_insertNode hole kind
      exact made ▸ ReflTransGen.single (.make (unused_of_hole hole))
  | replaceNode id kind =>
    apply nests_orKeep
    intro h replaced
    obtain ⟨n, found, wider, rfl⟩ := withKind_eq_ok replaced
    exact .of_nesting (nesting_widen wf found wider)
  | setName id name =>
    apply nests_orKeep
    intro h named
    rw [withName_eq_ok named]
    exact .of_nesting (nesting_touch fun n _ => cosmetic_setName n _)
  | setNameKey id name =>
    exact .of_nesting (nesting_touchIfFound fun n _ => cosmetic_setName n name)
  | setAttributes id attributes =>
    exact .of_nesting (nesting_touchIfFound fun n _ => cosmetic_describe trivial)
  | addEdge e source target =>
    apply nests_orKeep
    intro h added
    obtain ⟨accepts, after⟩ := nesting_withEdge added
    rw [after]
    split
    · next contains => exact .put contains accepts
    · exact .of_nesting rfl
  | addValueEdge e source target value =>
    exact nests_orKeep fun h added => .of_nesting (nesting_withValueEdge added)
  | setEdge e source target =>
    exact nests_orKeep fun h done => .of_nesting (nesting_withSingle done)
  | removeEdge e source target =>
    refine flagOrKeep_preserves (P := fun h => Nests g _ h.nesting) (.of_nesting rfl)
      fun removed h done => ?_
    rcases nesting_withoutEdge done with same | ⟨contains, lists, after⟩
    · exact .of_nesting same
    · exact after ▸ .take contains lists
  | buildIndex selector =>
    change Nests g _ (g.withIndex selector).2.nesting
    rcases snd_withIndex g selector with same | built
    · exact .of_nesting (congrArg nesting same)
    · rw [built]
      exact .of_nesting rfl
  | turnFilterOn => exact .of_nesting rfl
  | turnFilterOff => exact .of_nesting rfl
  | hide id => exact nests_orKeep fun h hidden => (refilters_withHidden hidden).nests _
  | reveal id => exact .of_nesting rfl
  | hideOnly id => exact nests_orKeep fun h hidden => (refilters_withState hidden).nests _
  | revealOnly id => exact nests_orKeep fun h shown => (refilters_withState shown).nests _
  | resetFilter => exact .of_nesting rfl
  | loadFilter input => exact nests_orKeep fun h loaded => (refilters_map loaded).nests _

/-- A containment edge that may be added is put. -/
theorem nesting_perform_addEdge {e : EdgeKind} (contains : e.isContainment = true)
    {source target : NodeId} (accepts : g.Accepts e source { id := target }) :
    ((Operation.addEdge e source target).perform g).2.nesting = g.nesting.put e source target := by
  have added : g.withEdge e source target = .ok (g.link e source { id := target }) := by
    unfold withEdge
    rw [checkEdge_of_accepts accepts]
  rw [Operation.perform_eq]
  change (Outcome.orKeep g (g.withEdge e source target)).2.nesting = _
  rw [added]
  exact nesting_link_contains contains accepts

/-- A containment edge that exists is taken away. -/
theorem nesting_perform_removeEdge {e : EdgeKind} (contains : e.isContainment = true)
    {source target : NodeId} (lists : g.nodes.Lists e source target) :
    ((Operation.removeEdge e source target).perform g).2.nesting =
      g.nesting.take e source target := by
  obtain ⟨n, found, -⟩ := id lists
  have found : g.find? source = some n := found
  rw [Operation.perform_eq]
  unfold Operation.effect withoutEdge
  simp only [found, (pointsTo_iff found).2 lists, if_true]
  exact nesting_sever contains lists

/-! ## Histories -/

/-- A node at a reserved id stands on its own. -/
theorem nesting_reserve {kind : NodeKind} {id : NodeId} (name : String) (hole : g.find? id = none) :
    (g.reserve kind id name).nesting = g.nesting.make id := by
  unfold reserve
  refine (nesting_touch fun n _ => cosmetic_setName n _).trans ?_
  exact nesting_insertNode hole kind

/-- In a new graph there are three nodes, each on its own. -/
theorem grows_new (language : Language) :
    ReflTransGen Nesting.Grow .nothing (new language).nesting := by
  have nothing : (empty language true).nesting = .nothing := NodeTable.nesting_empty
  have hole : ∀ id, (empty language true).find? id = none := NodeTable.find?_empty
  have step : ∀ (g : Graph) (kind : NodeKind) (id : NodeId) (name : String), g.find? id = none →
      Nesting.Grow g.nesting (g.reserve kind id name).nesting := by
    intro g kind id name hole
    rw [nesting_reserve name hole]
    exact .make (unused_of_hole hole)
  have remembered : (new language).nesting =
      ((newRoots language).reserve .component systemComponentId systemComponentName).nesting := by
    rw [new_eq]
    exact nesting_congr (nodes_remember _ _ _)
  rw [remembered, ← nothing]
  refine ReflTransGen.head (step _ .package rootId rootName (hole rootId))
    (ReflTransGen.head (step _ .fileSystem fileSystemId fileSystemName ?_)
      (ReflTransGen.single (step _ _ systemComponentId systemComponentName ?_)))
  · rw [find?_reserve_other _ _ (by decide)]
    exact hole fileSystemId
  · rw [find?_reserve_other _ _ (by decide), find?_reserve_other _ _ (by decide)]
    exact hole systemComponentId

/-- An operation keeps what holds of no nodes and what each change of the nesting keeps, if it obeys a
rule on which ids last. Loading is looked at on its own. -/
theorem Along.nests {P : Nesting → Prop} {rule : Graph → Operation → Prop}
    (last : ∀ g operation, rule g operation → operation.IdsLast g) (nothing : P .nothing)
    (grow : ∀ v w, Nesting.Grow v w → P v → P w)
    (put : ∀ g e source target, rule g (.addEdge e source target) → e.isContainment = true →
      g.Accepts e source { id := target } → P g.nesting → P (g.nesting.put e source target))
    (take : ∀ g e source target, rule g (.removeEdge e source target) → e.isContainment = true →
      g.nodes.Lists e source target → P g.nesting → P (g.nesting.take e source target))
    (load : ∀ g headers input, rule g (.load headers input) → P g.nesting →
      P (g.load headers input).2.2.nesting)
    {language : Language} {history : List Operation} (along : (new language).Along rule history) :
    P ((new language).after history).nesting := by
  have grown : ∀ v w, ReflTransGen Nesting.Grow v w → P v → P w := by
    intro v w run start
    induction run with
    | refl => exact start
    | tail _ step ih => exact grow _ _ step ih
  let Inv : Graph → Prop := fun g => g.nodes.WellFormed ∧ P g.nesting
  have step : ∀ g operation, rule g operation → Inv g → Inv (operation.perform g).2 := by
    intro g operation obeys inv
    refine ⟨wellFormed_perform operation inv.1, ?_⟩
    by_cases isEdit : operation.IsEdit
    · have changes := nests_perform inv.1 isEdit (last g operation obeys)
      generalize (operation.perform g).2.nesting = after at changes ⊢
      cases changes with
      | grow run => exact grown _ _ run inv.2
      | put contains accepts => exact put g _ _ _ obeys contains accepts inv.2
      | take contains lists => exact take g _ _ _ obeys contains lists inv.2
    · cases operation with
      | clear =>
        change P NodeTable.empty.nesting
        rw [NodeTable.nesting_empty]
        exact nothing
      | load headers input => exact load g headers input obeys inv.2
      | _ => exact absurd trivial isEdit
  have start : Inv (new language) := ⟨wellFormed_new language, grown _ _ (grows_new language) nothing⟩
  exact (along.preserves step start).2

end Graph

end CodeGraph
