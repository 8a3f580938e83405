import CodeGraph.Proofs.AllOrNothing
import CodeGraph.Proofs.NodeTable
import CodeGraph.Proofs.Slots
import Mathlib.Logic.Relation

/-!
# Operations as runs of edits

An operation on a graph is a run of a few elementary edits: a fresh node is inserted, name or
attributes of a node change, a node is widened, an edge is added or taken away, or something
besides nodes and edges changes. Each edit says what the operation had checked before. What every
edit keeps, every operation keeps, except for clearing and loading, which start over. Main
statements: `edits_perform` for the operations, `edits_new` for a new graph, and
`EditRun.preserves`, which carries an invariant along a run.
-/

set_option autoImplicit false

namespace CodeGraph

open Relation

/-- Attributes that have the same layers, whatever these hold. -/
inductive Attributes.SameLayers : Attributes → Attributes → Prop
  | empty : SameLayers .empty .empty
  | comment (a b : TextKey) : SameLayers (.comment a) (.comment b)
  | component (a b : ComponentAttributes) : SameLayers (.component a) (.component b)
  | friendship (a b : TextKey) : SameLayers (.friendship a) (.friendship b)
  | genericParameter (a b : GenericParameterKind) :
      SameLayers (.genericParameter a) (.genericParameter b)
  | parameter (a b : ParameterKind) : SameLayers (.parameter a) (.parameter b)
  | file (a b : FileAttributes) : SameLayers (.file a) (.file b)
  | attribute (a b : MemberAttributes) : SameLayers (.attribute a) (.attribute b)
  | classes (m m' : MemberAttributes) (s s' : ScopeAttributes) (a b : ClassAttributes) :
      SameLayers (.classes m s a) (.classes m' s' b)
  | method (m m' : MemberAttributes) (s s' : ScopeAttributes) (a b : MethodAttributes) :
      SameLayers (.method m s a) (.method m' s' b)
  | package (m m' : MemberAttributes) (s s' : ScopeAttributes) (a b : PackageKind) :
      SameLayers (.package m s a) (.package m' s' b)
  | simpleType (a b : SimpleTypeKind) : SameLayers (.simpleType a) (.simpleType b)
  | pointer (a b : PointerKind) : SameLayers (.pointer a) (.pointer b)

/-- Attributes have the layers that they have. -/
theorem Attributes.SameLayers.refl (a : Attributes) : a.SameLayers a := by
  cases a <;> constructor

/-- Attributes suit a kind if they have the layers that fresh nodes of that kind have. -/
def Attributes.Suits (kind : NodeKind) (a : Attributes) : Prop :=
  (Attributes.ofKind kind).SameLayers a

namespace Operation

/-- Whether an operation changes a graph rather than starting it over. -/
def IsEdit : Operation → Prop
  | .clear => False
  | .load _ _ => False
  | _ => True

/-- Whether the attributes that an operation gives to a node, if it does, obey a rule. -/
def Describes (rule : NodeKind → Attributes → Prop) (g : Graph) : Operation → Prop
  | .setAttributes id attributes => ∀ n, g.find? id = some n → rule n.kind attributes
  | _ => True

/-- A rule that all attributes obey is obeyed by every operation. -/
theorem describes_of_forall {rule : NodeKind → Attributes → Prop} (all : ∀ kind a, rule kind a)
    (g : Graph) (operation : Operation) : operation.Describes rule g := by
  unfold Describes
  split
  · exact fun n _ => all n.kind _
  · trivial

end Operation

namespace Graph

/-- Whether an edge may be added: its source has such edges, its target is of the right kind, and
it carries the right kind of value. -/
structure Accepts (g : Graph) (e : EdgeKind) (source : NodeId) (t : Target) : Prop where
  /-- The source exists and has a slot for the edge. -/
  source : ∃ n, g.find? source = some n ∧ e ∈ n.edgeKinds
  /-- The target exists and is of the kind that the edge points to. -/
  target : ∃ m, g.find? t.id = some m ∧ m.is e.target = true
  /-- The value is of the kind that the edge carries. -/
  value : EdgeValue.kindOf t.value = e.carries

/-- A change of nothing but name and attributes, which leaves unnamed nodes unnamed. New attributes
are held to `rule`. -/
structure Cosmetic (rule : NodeKind → Attributes → Prop) (n m : Node) : Prop where
  /-- Nothing but name and attributes differs. -/
  rest : m = { n with name := m.name, attributes := m.attributes }
  /-- A node that is not named keeps its name. -/
  name : n.isNamed = false → m.name = n.name
  /-- New attributes obey the rule. -/
  attributes : m.attributes = n.attributes ∨ rule n.kind m.attributes

/-- An elementary change of a graph. Attributes are held to `rule`. -/
inductive Edit (rule : NodeKind → Attributes → Prop) : Graph → Graph → Prop
  /-- A node with the next new id. -/
  | create (g : Graph) {kind : NodeKind} (concrete : kind.isAbstract = false) :
      Edit rule g (g.insertNode kind g.nextId)
  /-- A node with an id that was not used. -/
  | createAt (g : Graph) {kind : NodeKind} {id : NodeId} (concrete : kind.isAbstract = false)
      (valid : id.isValid = true) (hole : g.find? id = none) : Edit rule g (g.insertNode kind id)
  /-- Another name or other attributes of a node. -/
  | touch (g : Graph) {id : NodeId} {f : Node → Node}
      (cosmetic : ∀ n, g.find? id = some n → Cosmetic rule n (f n)) :
      Edit rule g (g.updateNode id f)
  /-- The generic form of a class or a method. -/
  | widen (g : Graph) {id : NodeId} {kind : NodeKind} {n : Node} (found : g.find? id = some n)
      (wider : widened? n.kind = some kind) :
      Edit rule g (g.updateNode id fun n => n.promote kind)
  /-- One more edge. -/
  | link (g : Graph) {e : EdgeKind} {source : NodeId} {t : Target}
      (accepts : g.Accepts e source t) : Edit rule g (g.link e source t)
  /-- One edge less. -/
  | sever (g : Graph) {e : EdgeKind} {source target : NodeId} {n : Node}
      (found : g.find? source = some n) (points : n.pointsTo e target = true) :
      Edit rule g ((g.updateNode source fun n => n.removeTarget e target).unlink e source target)
  /-- A text that may be new. -/
  | intern (g : Graph) (s : String) : Edit rule g (g.intern s).2
  /-- Texts from a stored table. -/
  | loadTexts (g : Graph) (input : Bytes) :
      Edit rule g { g with texts := (g.texts.load input).1 }
  /-- An index of incoming edges. -/
  | index (g : Graph) (selector : EdgeSelector) :
      Edit rule g { g with index := some (.build g.nodes selector) }
  /-- Another filter. -/
  | filter (g : Graph) (filter : Filter) (filterOn : Bool) :
      Edit rule g { g with filter, filterOn }
  /-- Another language. -/
  | language (g : Graph) (language : Language) : Edit rule g { g with language }
  /-- A value that a node stands for. -/
  | remember (g : Graph) (key : SingletonKey) (id : NodeId) : Edit rule g (g.remember key id)

/-- A run of elementary changes. -/
def EditRun (rule : NodeKind → Attributes → Prop) : Graph → Graph → Prop :=
  ReflTransGen (Edit rule)

variable {rule : NodeKind → Attributes → Prop}

/-! ## Nodes, sizes and ids -/

/-- Changing a node changes it in the table of nodes. -/
theorem nodes_updateNode (g : Graph) (id : NodeId) (f : Node → Node) :
    (g.updateNode id f).nodes = g.nodes.update id f :=
  rfl

/-- Inserting a node puts a fresh one into the table of nodes. -/
theorem nodes_insertNode (g : Graph) (kind : NodeKind) (id : NodeId) :
    (g.insertNode kind id).nodes = g.nodes.insert id (.fresh id kind) :=
  rfl

/-- Changing a node keeps the size. -/
@[simp] theorem size_updateNode (g : Graph) (id : NodeId) (f : Node → Node) :
    (g.updateNode id f).size = g.size :=
  NodeTable.size_update g.nodes id f

/-- A graph grows just enough for the id of a new node. -/
@[simp] theorem size_insertNode (g : Graph) (kind : NodeKind) (id : NodeId) :
    (g.insertNode kind id).size = max g.size (id.index + 1) :=
  NodeTable.size_insert g.nodes id (.fresh id kind)

section Upkeep

variable {P : Graph → Prop} (update : ∀ g id f, P g → P (g.updateNode id f))
  (index : ∀ (g : Graph) (index : Option IncomingIndex), P g → P { g with index })

include update index

/-- Undoing what follows from an edge keeps what changes of nodes and of the index keep. -/
theorem unlink_preserves {g : Graph} (e : EdgeKind) (source target : NodeId) (start : P g) :
    P (g.unlink e source target) := by
  unfold unlink
  apply index
  by_cases contains : e.isContainment = true
  · rw [if_pos contains]
    exact update g target _ start
  · rw [if_neg contains]
    exact start

/-- An edge keeps what changes of nodes and of the index keep. -/
theorem link_preserves {g : Graph} (e : EdgeKind) (source : NodeId) (t : Target)
    (start : P g) : P (g.link e source t) := by
  have added : P (g.updateNode source fun n => n.addTarget e t) := update g source _ start
  have unlinked : ∀ previous,
      P ((g.updateNode source fun n => n.addTarget e t).unlink e source previous) :=
    fun previous => unlink_preserves update index e source previous added
  unfold link
  apply index
  cases g.replacedTarget? e source with
  | none =>
    split
    · exact update _ t.id _ added
    · exact added
  | some previous =>
    split
    · exact update _ t.id _ (unlinked previous)
    · exact unlinked previous

end Upkeep

/-- Unlinking keeps the size. -/
@[simp] theorem size_unlink (g : Graph) (e : EdgeKind) (source target : NodeId) :
    (g.unlink e source target).size = g.size :=
  unlink_preserves (P := fun h => h.size = g.size)
    (fun h id f same => (size_updateNode h id f).trans same) (fun _ _ same => same) e source target
    rfl

/-- Linking keeps the size. -/
@[simp] theorem size_link (g : Graph) (e : EdgeKind) (source : NodeId) (t : Target) :
    (g.link e source t).size = g.size :=
  link_preserves (P := fun h => h.size = g.size)
    (fun h id f same => (size_updateNode h id f).trans same) (fun _ _ same => same) e source t rfl

/-- Remembering what a node stands for keeps the nodes. -/
theorem nodes_remember (g : Graph) (key : SingletonKey) (id : NodeId) :
    (g.remember key id).nodes = g.nodes := by
  unfold remember
  split <;> rfl

/-- Remembering what a node stands for keeps the size. -/
@[simp] theorem size_remember (g : Graph) (key : SingletonKey) (id : NodeId) :
    (g.remember key id).size = g.size := by
  unfold remember
  split <;> rfl

/-- An edit never makes a graph smaller. -/
theorem Edit.size_le {g h : Graph} (edit : Edit rule g h) : g.size ≤ h.size := by
  cases edit with
  | create concrete =>
    rw [size_insertNode]
    exact Nat.le_max_left _ _
  | createAt concrete valid hole =>
    rw [size_insertNode]
    exact Nat.le_max_left _ _
  | touch cosmetic => exact Nat.le_of_eq (size_updateNode g _ _).symm
  | widen found wider => exact Nat.le_of_eq (size_updateNode g _ _).symm
  | link accepts => exact Nat.le_of_eq (size_link g _ _ _).symm
  | sever found points =>
    exact Nat.le_of_eq ((size_unlink _ _ _ _).trans (size_updateNode g _ _)).symm
  | intern s => exact Nat.le_refl _
  | loadTexts input => exact Nat.le_refl _
  | index selector => exact Nat.le_refl _
  | filter filter filterOn => exact Nat.le_refl _
  | language language => exact Nat.le_refl _
  | remember key id => exact Nat.le_of_eq (size_remember g key id).symm

/-- The number of ids; a graph smaller than this has an unused one. -/
def idLimit : Nat :=
  UInt32.size

/-- While ids last, the next new id is valid and unused. -/
theorem nextId_fresh {g : Graph} (room : g.size < idLimit) :
    g.nextId.isValid = true ∧ g.find? g.nextId = none := by
  unfold nextId NodeId.ofIndex? NodeId.ofRaw?
  have number : (UInt32.ofNat g.size).toNat = g.size := by
    rw [UInt32.toNat_ofNat']
    exact Nat.mod_eq_of_lt room
  have small : g.size ≤ 1 → g.find? firstId = none := by
    intro small
    apply NodeTable.find?_of_size_le
    have position : firstId.index = 2 := rfl
    have bound : g.nodes.size ≤ 1 := small
    omega
  by_cases nonzero : UInt32.ofNat g.size ≠ 0
  · simp only [dif_pos nonzero]
    split
    · next valid =>
      refine ⟨valid, NodeTable.find?_of_size_le ?_⟩
      exact Nat.le_of_eq number.symm
    · next invalid =>
      refine ⟨rfl, small ?_⟩
      by_contra large
      apply invalid
      unfold NodeId.isValid
      rw [decide_eq_true_eq, UInt32.lt_iff_toNat_lt, number]
      exact Nat.lt_of_not_le large
  · simp only [dif_neg nonzero]
    refine ⟨rfl, small ?_⟩
    rw [not_not] at nonzero
    rw [← number, nonzero]
    exact Nat.zero_le 1

/-- An invariant that every edit keeps is kept by every run. -/
theorem EditRun.preserves {Inv : Graph → Prop} (step : ∀ g h, Edit rule g h → Inv g → Inv h)
    {g h : Graph} (run : EditRun rule g h) (start : Inv g) : Inv h := by
  induction run with
  | refl => exact start
  | tail run edit ih => exact step _ _ edit ih

/-- Edits never make a graph smaller. -/
theorem EditRun.size_le {g h : Graph} (run : EditRun rule g h) : g.size ≤ h.size := by
  have step : ∀ h k, Edit rule h k → g.size ≤ h.size → g.size ≤ k.size :=
    fun _ _ edit le => Nat.le_trans le edit.size_le
  exact run.preserves step (Nat.le_refl _)

/-- An invariant that every edit keeps while ids last holds after every edit if ids last until
then. -/
theorem Edit.while_room {Inv : Graph → Prop}
    (step : ∀ g h, Edit rule g h → g.size < idLimit → Inv g → Inv h) (g h : Graph)
    (edit : Edit rule g h) (before : g.size < idLimit → Inv g) (room : h.size < idLimit) :
    Inv h := by
  have earlier := Nat.lt_of_le_of_lt edit.size_le room
  exact step g h edit earlier (before earlier)

/-! ## What a graph finds after a change -/

/-- Changing a node changes no other one, and does nothing if it is missing. -/
theorem find?_updateNode (g : Graph) (id other : NodeId) (f : Node → Node) :
    (g.updateNode id f).find? other = if other = id then (g.find? id).map f else g.find? other :=
  NodeTable.find?_update g.nodes id other f

/-- A node that was inserted is found, and the others stay. -/
theorem find?_insertNode (g : Graph) (kind : NodeKind) (id other : NodeId) :
    (g.insertNode kind id).find? other =
      if other = id then some (.fresh id kind) else g.find? other :=
  NodeTable.find?_insert g.nodes id other (.fresh id kind)

/-- A node that is found is in the list of nodes. -/
theorem mem_nodeList_of_find? {g : Graph} {id : NodeId} {n : Node} (found : g.find? id = some n) :
    n ∈ g.nodeList := by
  have held := (NodeTable.find?_eq_some_iff g.nodes id n).1 found
  unfold nodeList NodeTable.toList
  exact List.mem_filterMap.2 ⟨some n, Array.mem_toList_iff.2 (Array.mem_of_getElem? held), rfl⟩

/-- A new node is found at the next new id as it was set up, and the others stay. -/
theorem find?_newNodeWith (g : Graph) (kind : NodeKind) (f : Node → Node) (other : NodeId) :
    (g.newNodeWith kind f).2.find? other =
      if other = g.nextId then some (f (.fresh g.nextId kind)) else g.find? other := by
  unfold newNodeWith
  rw [find?_updateNode, find?_insertNode, find?_insertNode, if_pos rfl]
  split <;> rfl

/-! ## Edges -/

/-- An edge that passes the check may be added. -/
theorem accepts_of_checkEdge {g : Graph} {site : Site} {e : EdgeKind} {source target : NodeId}
    {value : Option EdgeValue} (checked : g.checkEdge site e source target value = .ok ()) :
    g.Accepts e source ⟨target, value⟩ := by
  unfold checkEdge checkTarget at checked
  cases foundSource : g.find? source with
  | none => simp [foundSource] at checked
  | some n =>
    cases foundTarget : g.find? target with
    | none =>
      simp only [foundSource, foundTarget] at checked
      split at checked <;> cases checked
    | some m =>
      simp only [foundSource, foundTarget] at checked
      by_cases has : n.hasEdgeKind e = true
      · by_cases right : m.is e.target = true
        · by_cases carried : EdgeValue.kindOf value = e.carries
          · exact ⟨⟨n, foundSource, (Node.hasEdgeKind_iff n e).1 has⟩, ⟨m, foundTarget, right⟩,
              carried⟩
          · simp [has, right, carried] at checked
        · simp [has, right] at checked
      · simp [has] at checked

/-- An edge that may be added passes the check. -/
theorem checkEdge_of_accepts {g : Graph} {e : EdgeKind} {source target : NodeId}
    {value : Option EdgeValue} (accepts : g.Accepts e source ⟨target, value⟩) (site : Site) :
    g.checkEdge site e source target value = .ok () := by
  obtain ⟨⟨n, foundSource, has⟩, ⟨m, foundTarget, right⟩, carried⟩ := accepts
  have has := (Node.hasEdgeKind_iff n e).2 has
  unfold checkEdge checkTarget
  simp only [foundSource, foundTarget, has, right, if_true]
  exact if_pos carried

/-- An edge that is added is one that the graph accepts, and it is linked. -/
theorem withEdge_eq_ok {g h : Graph} {e : EdgeKind} {source target : NodeId}
    (added : g.withEdge e source target = .ok h) :
    g.Accepts e source { id := target } ∧ h = g.link e source { id := target } := by
  unfold withEdge at added
  split at added
  · cases added
  · next checked =>
    cases added
    exact ⟨accepts_of_checkEdge checked, rfl⟩

/-- An edge with a value that is added is one that the graph accepts, and it is linked. -/
theorem withValueEdge_eq_ok {g h : Graph} {e : EdgeKind} {source target : NodeId}
    {value : EdgeValue} (added : g.withValueEdge e source target value = .ok h) :
    g.Accepts e source ⟨target, some value⟩ ∧ h = g.link e source ⟨target, some value⟩ := by
  unfold withValueEdge at added
  split at added
  · cases added
  · next checked =>
    cases added
    exact ⟨accepts_of_checkEdge checked, rfl⟩

/-- An edge is removed if there is one. -/
theorem withoutEdge_eq_ok {g h : Graph} {e : EdgeKind} {source target : NodeId} {removed : Bool}
    (done : g.withoutEdge e source target = .ok (removed, h)) :
    h = g ∨ ∃ n, g.find? source = some n ∧ n.pointsTo e target = true ∧
      h = (g.updateNode source fun n => n.removeTarget e target).unlink e source target := by
  unfold withoutEdge at done
  split at done
  · cases done
  · next n found =>
    split at done
    · next points =>
      cases done
      exact Or.inr ⟨n, found, points, rfl⟩
    · cases done
      exact Or.inl rfl

/-- The edge of a kind that allows only one is added, or removed if there is one. -/
theorem withSingle_eq_ok {g h : Graph} {e : EdgeKind} {source : NodeId} {target : Option NodeId}
    (done : g.withSingle e source target = .ok h) :
    e.isSingle = true ∧ (h = g ∨
      (∃ t, g.Accepts e source { id := t } ∧ h = g.link e source { id := t }) ∨
      ∃ previous removed, g.withoutEdge e source previous = .ok (removed, h)) := by
  unfold withSingle at done
  split at done
  · next single =>
    refine ⟨single, ?_⟩
    split at done
    · split at done
      · cases done
      · next checked =>
        cases done
        exact Or.inr (Or.inl ⟨_, accepts_of_checkEdge checked, rfl⟩)
    · split at done
      · cases done
      · split at done
        · cases done
          exact Or.inl rfl
        · next previous _ =>
          cases result : g.withoutEdge e source previous with
          | error cause => simp [result, Except.map] at done
          | ok made =>
            rw [result] at done
            cases done
            exact Or.inr (Or.inr ⟨previous, made.1, result⟩)
  · cases done

/-- Adding an edge is a run of edits. -/
theorem edits_withEdge {g h : Graph} {e : EdgeKind} {source target : NodeId}
    (added : g.withEdge e source target = .ok h) : EditRun rule g h := by
  obtain ⟨accepts, rfl⟩ := withEdge_eq_ok added
  exact ReflTransGen.single (.link g accepts)

/-- Adding an edge with a value is a run of edits. -/
theorem edits_withValueEdge {g h : Graph} {e : EdgeKind} {source target : NodeId} {value : EdgeValue}
    (added : g.withValueEdge e source target value = .ok h) : EditRun rule g h := by
  obtain ⟨accepts, rfl⟩ := withValueEdge_eq_ok added
  exact ReflTransGen.single (.link g accepts)

/-- Adding edges one after another is a run of edits, also if one of them is refused. -/
theorem edits_addEdges {e : EdgeKind} {source : NodeId} (targets : List NodeId) (g : Graph) :
    EditRun rule g (g.addEdges e source targets).2 := by
  rw [addEdges_eq]
  induction targets generalizing g with
  | nil => exact .refl
  | cons target targets ih =>
    unfold withEdges
    split
    · exact .refl
    · next first => exact (edits_withEdge first).trans (ih _)

/-- Removing an edge is a run of edits. -/
theorem edits_withoutEdge {g h : Graph} {e : EdgeKind} {source target : NodeId} {removed : Bool}
    (done : g.withoutEdge e source target = .ok (removed, h)) : EditRun rule g h := by
  obtain rfl | ⟨n, found, points, rfl⟩ := withoutEdge_eq_ok done
  · exact .refl
  · exact ReflTransGen.single (.sever g found points)

/-- Setting the one edge of a kind is a run of edits. -/
theorem edits_withSingle {g h : Graph} {e : EdgeKind} {source : NodeId} {target : Option NodeId}
    (done : g.withSingle e source target = .ok h) : EditRun rule g h := by
  obtain ⟨-, rfl | ⟨t, accepts, rfl⟩ | ⟨previous, removed, taken⟩⟩ := withSingle_eq_ok done
  · exact .refl
  · exact ReflTransGen.single (.link g accepts)
  · exact edits_withoutEdge taken

/-- An index is built, unless there is one for the same edges. -/
theorem snd_withIndex (g : Graph) (selector : EdgeSelector) :
    (g.withIndex selector).2 = g ∨
      (g.withIndex selector).2 = { g with index := some (.build g.nodes selector) } := by
  unfold withIndex
  split
  · split
    · exact Or.inl rfl
    · exact Or.inr rfl
  · exact Or.inr rfl

/-! ## Nodes -/

/-- Leaving a node as it is changes nothing but name and attributes. -/
theorem Cosmetic.refl (n : Node) : Cosmetic rule n n :=
  ⟨rfl, fun _ => rfl, Or.inl rfl⟩

/-- Renaming a node changes nothing but its name, and nothing at all if it has none. -/
theorem cosmetic_setName (n : Node) (key : TextKey) : Cosmetic rule n (n.setName key) := by
  unfold Node.setName
  split
  · next named =>
    exact ⟨rfl, fun unnamed => absurd (named.symm.trans unnamed) (by decide), Or.inl rfl⟩
  · exact .refl n

/-- Giving a node attributes changes nothing else. -/
theorem cosmetic_describe {n : Node} {attributes : Attributes} (obeys : rule n.kind attributes) :
    Cosmetic rule n { n with attributes } :=
  ⟨rfl, fun _ => rfl, Or.inr obeys⟩

/-- Making a node is a run of edits. -/
theorem edits_newNode (g : Graph) {kind : NodeKind} (concrete : kind.isAbstract = false) :
    EditRun rule g (g.newNode kind).2 :=
  ReflTransGen.single (.create g concrete)

/-- Making a node with a name or attributes is a run of edits. -/
theorem edits_newNodeWith (g : Graph) {kind : NodeKind} {f : Node → Node}
    (concrete : kind.isAbstract = false)
    (cosmetic : ∀ id, Cosmetic rule (.fresh id kind) (f (.fresh id kind))) :
    EditRun rule g (g.newNodeWith kind f).2 := by
  refine (edits_newNode g concrete).trans (ReflTransGen.single (.touch _ ?_))
  intro n found
  have made : n = .fresh g.nextId kind := by
    unfold newNode at found
    rw [find?_insertNode, if_pos rfl] at found
    exact (Option.some.inj found).symm
  rw [made]
  exact cosmetic g.nextId

/-- The node for a value is found, or made by a run of edits. -/
theorem edits_singletonNode (g : Graph) (key : SingletonKey) {kind : NodeKind} {f : Node → Node}
    (concrete : kind.isAbstract = false)
    (cosmetic : ∀ id, Cosmetic rule (.fresh id kind) (f (.fresh id kind))) :
    EditRun rule g (g.singletonNode key kind f).2 := by
  unfold singletonNode
  split
  · exact .refl
  · exact (edits_newNodeWith g concrete cosmetic).tail (.remember _ key _)

/-- A new node with its one edge set is made by a run of edits, and so is one whose edge is
refused. -/
theorem edits_newNodeTo (g : Graph) {kind : NodeKind} {e : EdgeKind} {target : Option NodeId}
    (concrete : kind.isAbstract = false) : EditRun rule g (g.newNodeTo kind e target).2 := by
  rw [newNodeTo_eq]
  unfold withNodeTo
  simp only
  split
  · exact edits_newNode g concrete
  · next linked => exact (edits_newNode g concrete).trans (edits_withSingle linked)

section Values

variable {P : Graph → Prop} {g : Graph}

/-- What a new node with its edge has is had when the node is also remembered, or known before. -/
theorem referenceNode_preserves {key : SingletonKey} {kind : NodeKind} {e : EdgeKind}
    {target : Option NodeId} {check : Except Error Unit} (keeps : P g)
    (makes : P (g.newNodeTo kind e target).2) (remembers : ∀ h id, P h → P (h.remember key id)) :
    P (g.referenceNode key kind e target check).2 := by
  unfold referenceNode
  split
  · exact keeps
  · split
    · exact keeps
    · split
      · next result =>
        rw [result] at makes
        exact makes
      · next id h result =>
        rw [result] at makes
        exact remembers h id makes

/-- What a graph has that keeps the text of a type, also with a new node that has its formers, is
had when the type is built. -/
theorem buildType_preserves {stack : List NodeId} (keeps : P g)
    (interns : P (g.intern (typeText stack.reverse)).2)
    (links : ∀ id, P (((g.intern (typeText stack.reverse)).2.newNode .type).2.addEdges
      .typeHasTypeFormer id stack.reverse).2)
    (remembers : ∀ h key id, P h → P (h.remember key id)) : P (g.buildType stack).2 := by
  unfold buildType
  split
  · exact keeps
  · split
    · exact keeps
    · simp only
      split
      · exact interns
      · have linked := links ((g.intern (typeText stack.reverse)).2.newNode .type).1
        split
        · next result =>
          rw [result] at linked
          exact linked
        · next h result =>
          rw [result] at linked
          exact remembers h _ _ linked

end Values

/-- The node for a value that is another node is found, or made by a run of edits. -/
theorem edits_referenceNode (g : Graph) (key : SingletonKey) {kind : NodeKind} {e : EdgeKind}
    {target : Option NodeId} {check : Except Error Unit} (concrete : kind.isAbstract = false) :
    EditRun rule g (g.referenceNode key kind e target check).2 :=
  referenceNode_preserves (P := EditRun rule g) .refl (edits_newNodeTo g concrete)
    fun h id run => run.tail (.remember h key id)

/-- Building a type is a run of edits. -/
theorem edits_buildType (g : Graph) (stack : List NodeId) :
    EditRun rule g (g.buildType stack).2 := by
  have interned : EditRun rule g (g.intern (typeText stack.reverse)).2 :=
    ReflTransGen.single (.intern g _)
  exact buildType_preserves (P := EditRun rule g) .refl interned
    (fun id => (interned.trans (edits_newNode _ rfl)).trans (edits_addEdges stack.reverse _))
    fun h key id run => run.tail (.remember h key id)

/-! ## Files and folders -/

/-- Opening an entry is a run of edits. -/
theorem edits_openEntry (g : Graph) (container : NodeId) (name : String) {kind : NodeKind}
    (concrete : kind.isAbstract = false) :
    EditRun rule g (g.openEntry container name kind).2 := by
  rw [openEntry_eq]
  unfold withEntry
  split
  · exact .refl
  · split
    · exact .refl
    · have interned : EditRun rule g (g.intern name).2 := ReflTransGen.single (.intern g name)
      have named : EditRun rule (g.intern name).2
          ((g.intern name).2.newNodeWith kind fun n => n.setName (g.intern name).1).2 :=
        edits_newNodeWith _ concrete fun id => cosmetic_setName (.fresh id kind) _
      have made := interned.trans named
      simp only
      split
      · -- an entry that its container refuses stays, without a parent
        exact made
      · next added => exact made.trans (edits_withEdge added)

section Entries

variable {P : Graph → Prop}

/-- What opening one folder keeps, opening several keeps. -/
theorem openFolders_preserves
    (opens : ∀ g container name, P g → P (g.openEntry container name .folder).2)
    (names : List String) (g : Graph) (container : NodeId) (start : P g) :
    P (g.openFolders container names).2 := by
  induction names generalizing g container with
  | nil => exact start
  | cons name names ih =>
    have opened := opens g container name start
    unfold openFolders
    split
    · exact start
    · split
      · next result =>
        -- the folders that were opened before the failure stay open
        rw [result] at opened
        exact opened
      · next folder next result =>
        rw [result] at opened
        exact ih next folder opened

/-- What opening a folder and opening a file keep is kept when a file is made. -/
theorem createFileFrom_preserves
    (folders : ∀ g container name, P g → P (g.openEntry container name .folder).2)
    (files : ∀ g container name, P g → P (g.openEntry container name .file).2) (g : Graph)
    (path : String) (start : NodeId) (inv : P g) : P (g.createFileFrom path start).2 := by
  have opened := openFolders_preserves folders (pathNames path).dropLast g start inv
  unfold createFileFrom
  split
  · exact inv
  · split
    · simp only
      split
      · next result =>
        rw [result] at opened
        exact opened
      · next folder next result =>
        rw [result] at opened
        split
        · exact opened
        · exact files next folder _ opened
    · exact inv

end Entries

/-- Asking for a file is a run of edits, also if it is refused. -/
theorem edits_createFileFrom (g : Graph) (path : String) (start : NodeId) :
    EditRun rule g (g.createFileFrom path start).2 :=
  createFileFrom_preserves (P := EditRun rule g)
    (fun h container name run => run.trans (edits_openEntry h container name rfl))
    (fun h container name run => run.trans (edits_openEntry h container name rfl)) g path start .refl

/-! ## Operations -/

/-- An operation that changes nothing if it fails has what it has when it succeeds. -/
theorem orKeep_preserves {P : Graph → Prop} {g : Graph} {result : Except Error Graph} (keeps : P g)
    (succeeds : ∀ h, result = .ok h → P h) : P (Outcome.orKeep g result).2 := by
  cases result with
  | error cause => exact keeps
  | ok h => exact succeeds h rfl

/-- What holds before, and after every success that gives a node, holds in any case. -/
theorem nodeOrKeep_preserves {P : Graph → Prop} {g : Graph}
    {result : Except Error (NodeId × Graph)} (keeps : P g)
    (succeeds : ∀ id h, result = .ok (id, h) → P h) : P (Outcome.nodeOrKeep g result).2 := by
  cases result with
  | error cause => exact keeps
  | ok made => exact succeeds made.1 made.2 rfl

/-- What holds before, and after every success that gives a truth value, holds in any case. -/
theorem flagOrKeep_preserves {P : Graph → Prop} {g : Graph} {result : Except Error (Bool × Graph)}
    (keeps : P g) (succeeds : ∀ yes h, result = .ok (yes, h) → P h) :
    P (Outcome.flagOrKeep g result).2 := by
  cases result with
  | error cause => exact keeps
  | ok made => exact succeeds made.1 made.2 rfl

/-- An operation is a run of edits if its successes are. -/
theorem edits_orKeep {g : Graph} {result : Except Error Graph}
    (succeeds : ∀ h, result = .ok h → EditRun rule g h) :
    EditRun rule g (Outcome.orKeep g result).2 :=
  orKeep_preserves (P := EditRun rule g) .refl succeeds

/-- An operation that gives a node or fails without effect is a run of edits if it is one when it
succeeds. -/
theorem edits_nodeOrKeep {g : Graph} {result : Except Error (NodeId × Graph)}
    (succeeds : ∀ id h, result = .ok (id, h) → EditRun rule g h) :
    EditRun rule g (Outcome.nodeOrKeep g result).2 :=
  nodeOrKeep_preserves (P := EditRun rule g) .refl succeeds

/-- Changing name or attributes of a node is a run of edits, also if the node is missing. -/
theorem edits_touch (g : Graph) (id : NodeId) {f : Node → Node}
    (cosmetic : ∀ n, g.find? id = some n → Cosmetic rule n (f n)) :
    EditRun rule g (g.touch id f).2 := by
  unfold touch
  split
  · exact ReflTransGen.single (.touch g cosmetic)
  · exact .refl

/-- A node that is renamed gets the key of the interned name. -/
theorem withName_eq_ok {g h : Graph} {id : NodeId} {name : String}
    (named : g.withName id name = .ok h) :
    h = (g.intern name).2.updateNode id fun n => n.setName (g.intern name).1 := by
  unfold withName at named
  split at named
  · cases named
  · split at named
    · cases named
      rfl
    · cases named

/-- Renaming a node is a run of edits. -/
theorem edits_withName {g h : Graph} {id : NodeId} {name : String}
    (named : g.withName id name = .ok h) : EditRun rule g h := by
  rw [withName_eq_ok named]
  refine ReflTransGen.head (.intern g name) (ReflTransGen.single (.touch _ ?_))
  intro n _
  exact cosmetic_setName n _

/-- One graph is another one with a filter of its own. -/
def Refilters (g h : Graph) : Prop :=
  ∃ filter, h = { g with filter }

/-- What comes of another filter differs in the filter only. -/
theorem refilters_map {g h : Graph} {result : Except Error Filter}
    (done : (result.map fun filter => { g with filter }) = .ok h) : g.Refilters h := by
  cases result with
  | error cause => cases done
  | ok filter =>
    cases done
    exact ⟨filter, rfl⟩

/-- Hiding a node and all below it changes the filter only. -/
theorem refilters_withHidden {g h : Graph} {id : NodeId} (hidden : g.withHidden id = .ok h) :
    g.Refilters h := by
  unfold withHidden at hidden
  split at hidden
  · cases hidden
  · cases hidden
    exact ⟨_, rfl⟩

/-- Hiding or showing a single node changes the filter only. -/
theorem refilters_withState {g h : Graph} {site : Site} {id : NodeId} {state : FilterState}
    (done : g.withState site id state = .ok h) : g.Refilters h := by
  unfold withState at done
  split at done
  · cases done
  · cases done
    exact ⟨_, rfl⟩

/-- A change of the filter is a run of edits. -/
theorem Refilters.edits {g h : Graph} (refilters : g.Refilters h) : EditRun rule g h := by
  obtain ⟨filter, rfl⟩ := refilters
  exact ReflTransGen.single (.filter g filter g.filterOn)

/-- The kinds that nodes can be made of are not abstract. -/
theorem concrete_of_creatable :
    ∀ kind ∈ creatableKinds, NodeKind.isAbstract kind = false := by
  decide

/-- A node is made only of a kind that nodes can be made of. -/
theorem withNode_eq_ok {g h : Graph} {kind : NodeKind} {id : NodeId}
    (created : g.withNode kind = .ok (id, h)) :
    kind ∈ creatableKinds ∧ (id, h) = g.newNode kind := by
  unfold withNode at created
  split at created
  · next creatable =>
    cases created
    exact ⟨List.contains_iff_mem.1 creatable, rfl⟩
  · cases created

/-- A node is replaced only by one of the kind that widens its own. -/
theorem withKind_eq_ok {g h : Graph} {id : NodeId} {kind : NodeKind}
    (replaced : g.withKind id kind = .ok h) :
    ∃ n, g.find? id = some n ∧ widened? n.kind = some kind ∧
      h = g.updateNode id fun n => n.promote kind := by
  unfold withKind at replaced
  split at replaced
  · cases replaced
  · next n found =>
    split at replaced
    · next wider =>
      cases replaced
      exact ⟨n, found, wider, rfl⟩
    · cases replaced

/-- A node that is made at an id is fresh, and the id was unused. -/
theorem withNodeAt_eq_ok {g h : Graph} {kind : NodeKind} {id : NodeId}
    (created : g.withNodeAt kind id = .ok h) :
    kind.isAbstract = false ∧ id.isValid = true ∧ g.find? id = none ∧ h = g.insertNode kind id := by
  unfold withNodeAt at created
  split at created
  · cases created
  · next concrete =>
    split at created
    · cases created
    · next valid =>
      split at created
      · cases created
      · next unused =>
        cases created
        refine ⟨?_, ?_, Option.not_isSome_iff_eq_none.1 unused, rfl⟩
        · simpa using concrete
        · simpa using valid

/-- Every operation that does not start a graph over is a run of edits. Attributes that suit their
kind must be allowed, since graphs give them to nodes that stand for values. -/
theorem edits_perform (allowed : ∀ kind a, Attributes.Suits kind a → rule kind a) (g : Graph)
    (operation : Operation) (isEdit : operation.IsEdit) (describes : operation.Describes rule g) :
    EditRun rule g (operation.perform g).2 := by
  rw [Operation.perform_eq]
  cases operation with
  | setLanguage language => exact ReflTransGen.single (.language g language)
  | clear => exact isEdit.elim
  | intern text => exact ReflTransGen.single (.intern g text)
  | loadTexts input => exact ReflTransGen.single (.loadTexts g input)
  | createNode kind =>
    apply edits_nodeOrKeep
    intro id h created
    obtain ⟨creatable, made⟩ := withNode_eq_ok created
    cases made
    exact edits_newNode g (concrete_of_creatable kind creatable)
  | createNodeWithId kind id =>
    apply edits_nodeOrKeep
    intro made h created
    cases result : g.withNodeAt kind id with
    | error cause => simp [result, Except.map] at created
    | ok next =>
      rw [result] at created
      cases created
      obtain ⟨concrete, valid, hole, rfl⟩ := withNodeAt_eq_ok result
      exact ReflTransGen.single (.createAt g concrete valid hole)
  | replaceNode id kind =>
    apply edits_orKeep
    intro h replaced
    obtain ⟨n, found, wider, rfl⟩ := withKind_eq_ok replaced
    exact ReflTransGen.single (.widen g found wider)
  | simpleType kind =>
    exact edits_singletonNode g _ rfl fun id =>
      cosmetic_describe (allowed .simpleType (.simpleType kind) (.simpleType default kind))
  | pointerFormer kind =>
    exact edits_singletonNode g _ rfl fun id =>
      cosmetic_describe (allowed .typeFormerPointer (.pointer kind) (.pointer default kind))
  | arrayFormer => exact edits_singletonNode g _ rfl fun id => .refl _
  | nonTypeFormer => exact edits_singletonNode g _ rfl fun id => .refl _
  | typeReference refersTo => exact edits_referenceNode g _ rfl
  | methodFormer => exact edits_newNode g rfl
  | attributeAccess accessed => exact edits_referenceNode g _ rfl
  | methodCall method => exact edits_referenceNode g _ rfl
  | comment text =>
    refine ReflTransGen.head (.intern g text) (edits_singletonNode _ _ rfl fun id => ?_)
    exact cosmetic_describe (allowed .comment (.comment _) (.comment .empty _))
  | component name =>
    refine ReflTransGen.head (.intern g name) (edits_singletonNode _ _ rfl fun id => ?_)
    exact cosmetic_setName _ _
  | friendship grantee =>
    refine ReflTransGen.head (.intern g grantee) (edits_newNodeWith _ rfl fun id => ?_)
    exact cosmetic_describe (allowed .friendship (.friendship _) (.friendship .empty _))
  | buildType stack => exact edits_buildType g stack
  | createFile path => exact edits_createFileFrom g path g.fileSystem
  | createFileFrom path start => exact edits_createFileFrom g path start
  | setName id name => exact edits_orKeep fun h named => edits_withName named
  | setNameKey id name => exact edits_touch g id fun n _ => cosmetic_setName n name
  | setAttributes id attributes =>
    exact edits_touch g id fun n found => cosmetic_describe (describes n found)
  | addEdge edge source target => exact edits_orKeep fun h added => edits_withEdge added
  | addValueEdge edge source target value =>
    exact edits_orKeep fun h added => edits_withValueEdge added
  | setEdge edge source target => exact edits_orKeep fun h done => edits_withSingle done
  | removeEdge edge source target =>
    exact flagOrKeep_preserves (P := EditRun rule g) .refl fun removed h done => edits_withoutEdge done
  | buildIndex selector =>
    change EditRun rule g (g.withIndex selector).2
    rcases snd_withIndex g selector with same | built
    · rw [same]
      exact .refl
    · rw [built]
      exact ReflTransGen.single (.index g selector)
  | turnFilterOn => exact ReflTransGen.single (.filter g g.filter true)
  | turnFilterOff => exact ReflTransGen.single (.filter g g.filter false)
  | hide id => exact edits_orKeep fun h hidden => (refilters_withHidden hidden).edits
  | reveal id => exact ReflTransGen.single (.filter g _ g.filterOn)
  | hideOnly id => exact edits_orKeep fun h hidden => (refilters_withState hidden).edits
  | revealOnly id => exact edits_orKeep fun h shown => (refilters_withState shown).edits
  | resetFilter => exact ReflTransGen.single (.filter g _ g.filterOn)
  | loadFilter input => exact edits_orKeep fun h loaded => (refilters_map loaded).edits
  | load headers input => exact isEdit.elim

/-- The graph with a named node at a reserved id. -/
def reserve (g : Graph) (kind : NodeKind) (id : NodeId) (name : String) : Graph :=
  ((g.intern name).2.insertNode kind id).updateNode id fun n => n.setName (g.intern name).1

/-- A named node at an unused id is made by a run of edits. -/
theorem edits_reserve {g : Graph} {kind : NodeKind} {id : NodeId} (name : String)
    (concrete : kind.isAbstract = false) (valid : id.isValid = true) (hole : g.find? id = none) :
    EditRun rule g (g.reserve kind id name) := by
  refine ReflTransGen.head (.intern g name) (ReflTransGen.head (.createAt _ concrete valid hole)
    (ReflTransGen.single (.touch _ ?_)))
  intro n _
  exact cosmetic_setName n _

/-- Reserving an id changes no other node. -/
theorem find?_reserve_other (g : Graph) {kind : NodeKind} {id other : NodeId} (name : String)
    (different : other ≠ id) : (g.reserve kind id name).find? other = g.find? other := by
  unfold reserve
  rw [find?_updateNode, if_neg different, find?_insertNode, if_neg different]
  rfl

/-- The root package and the file system of a new graph. -/
def newRoots (language : Language) : Graph :=
  ((empty language true).reserve .package rootId rootName).reserve .fileSystem fileSystemId
    fileSystemName

/-- A new graph has a root package, a file system and a system component, which it remembers. -/
theorem new_eq (language : Language) :
    new language =
      ((newRoots language).reserve .component systemComponentId systemComponentName).remember
        (.component ((newRoots language).intern systemComponentName).1) systemComponentId :=
  rfl

/-- A new graph is a run of edits away from the graph without nodes and texts. -/
theorem edits_new (language : Language) : EditRun rule (empty language true) (new language) := by
  have nothing : ∀ id, (empty language true).find? id = none := NodeTable.find?_empty
  have roots : EditRun rule (empty language true) (newRoots language) := by
    refine (edits_reserve rootName rfl rfl (nothing rootId)).trans
      (edits_reserve fileSystemName rfl rfl ?_)
    rw [find?_reserve_other _ _ (by decide)]
    exact nothing fileSystemId
  have hole : (newRoots language).find? systemComponentId = none := by
    unfold newRoots
    rw [find?_reserve_other _ _ (by decide), find?_reserve_other _ _ (by decide)]
    exact nothing systemComponentId
  rw [new_eq]
  exact (roots.trans (edits_reserve systemComponentName rfl rfl hole)).tail (.remember _ _ _)

end Graph

end CodeGraph
