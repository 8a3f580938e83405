import CodeGraph.Proofs.Structure

/-!
# Who contains whom

The nesting of a graph forgets all but containment: which ids have a node, the parent of each, and
the ids that each node lists under each containment kind. It changes in three ways: there is one more
node, one more containment edge, or one less. Main statements: `NodeTable.nesting_insert`,
`NodeTable.nesting_put` and `NodeTable.nesting_take`, which changes of the nodes these are; all that
leaves parents and containment edges alone leaves the nesting alone (`NodeTable.nesting_update`).
-/

set_option autoImplicit false

namespace CodeGraph

/-- What a graph says about containment. -/
@[ext] structure Nesting where
  /-- Whether there is a node with an id. -/
  has : NodeId → Bool
  parent : NodeId → Option Parent
  /-- The far ends of the edges of a containment kind, in the order of insertion. -/
  held : EdgeKind → NodeId → List NodeId

namespace Nesting

/-- No nodes at all. -/
def nothing : Nesting :=
  ⟨fun _ => false, fun _ => none, fun _ _ => []⟩

/-- One more node, on its own. -/
def make (v : Nesting) (id : NodeId) : Nesting :=
  { v with has := fun x => x = id || v.has x }

/-- One more containment edge. -/
def put (v : Nesting) (e : EdgeKind) (source target : NodeId) : Nesting :=
  { v with
    parent := fun x => if x = target then some ⟨source, e⟩ else v.parent x
    held := fun k x => if k = e ∧ x = source then v.held k x ++ [target] else v.held k x }

/-- One containment edge less. The far end loses its parent if that is where the edge started,
whatever other edges there are. -/
def take (v : Nesting) (e : EdgeKind) (source target : NodeId) : Nesting :=
  { v with
    parent := fun x =>
      if x = target ∧ (v.parent x).map Parent.id = some source then none else v.parent x
    held := fun k x => if k = e ∧ x = source then (v.held k x).erase target else v.held k x }

/-- One more node, on its own or below one that exists. -/
inductive Grow : Nesting → Nesting → Prop
  | make {v : Nesting} {id : NodeId} (unused : v.has id = false) : Grow v (v.make id)
  | enter {v : Nesting} {e : EdgeKind} {holder id : NodeId} (unused : v.has id = false)
      (exists_ : v.has holder = true) : Grow v ((v.make id).put e holder id)

/-- The far end of a new edge gets its source as parent. -/
theorem parent_put_self (v : Nesting) (e : EdgeKind) (source target : NodeId) :
    (v.put e source target).parent target = some ⟨source, e⟩ :=
  if_pos rfl

/-- A new edge changes the parent of its far end only. -/
theorem parent_put_other (v : Nesting) (e : EdgeKind) (source : NodeId) {target x : NodeId}
    (other : x ≠ target) : (v.put e source target).parent x = v.parent x :=
  if_neg other

/-- A new edge adds its far end to what its source lists. -/
theorem mem_held_put {v : Nesting} {e k : EdgeKind} {source target s x : NodeId} :
    x ∈ (v.put e source target).held k s ↔
      x ∈ v.held k s ∨ k = e ∧ s = source ∧ x = target := by
  unfold put
  simp only
  split
  · next here => simp [here]
  · next elsewhere => tauto

/-- What is listed after an edge is taken away was listed before. -/
theorem mem_held_of_take {v : Nesting} {e k : EdgeKind} {source target s x : NodeId}
    (mem : x ∈ (v.take e source target).held k s) : x ∈ v.held k s := by
  unfold take at mem
  simp only at mem
  split at mem
  · exact List.mem_of_mem_erase mem
  · exact mem

/-- Taking an edge away leaves all edges with another far end. -/
theorem mem_held_take {v : Nesting} {e k : EdgeKind} {source target s x : NodeId}
    (mem : x ∈ v.held k s) (elsewhere : k = e → s = source → x ≠ target) :
    x ∈ (v.take e source target).held k s := by
  unfold take
  simp only
  split
  · next here => exact (List.mem_erase_of_ne (elsewhere here.1 here.2)).2 mem
  · exact mem

/-- Who has a parent after an edge has been taken away had it before, and lost no edge from it. -/
theorem parent_of_take {v : Nesting} {e : EdgeKind} {source target x : NodeId} {p : Parent}
    (parent : (v.take e source target).parent x = some p) :
    v.parent x = some p ∧ (x = target → p.id ≠ source) := by
  unfold take at parent
  simp only at parent
  split at parent
  · cases parent
  · next kept =>
    refine ⟨parent, fun hit same => kept ⟨hit, ?_⟩⟩
    rw [parent, ← same]
    rfl

end Nesting

/-! ## The nesting of the nodes -/

namespace Node

/-- The ids that a node lists under a containment kind. -/
def holds (n : Node) (e : EdgeKind) : List NodeId :=
  if e.isContainment then (n.targets e).map Target.id else []

/-- A fresh node lists nothing. -/
@[simp] theorem holds_fresh (id : NodeId) (kind : NodeKind) (e : EdgeKind) :
    (fresh id kind).holds e = [] := by
  simp [holds]

/-- Edges of one kind count for no other kind, and not at all if they contain nothing. -/
theorem holds_mapTargets (n : Node) {e k : EdgeKind} (different : k = e → e.isContainment = false)
    (f : List Target → List Target) : (n.mapTargets e f).holds k = n.holds k := by
  by_cases same : k = e
  · subst same
    simp [holds, different rfl]
  · simp only [holds, targets_mapTargets_other n same]

/-- A node lists the far end of a new containment edge last. -/
theorem holds_addTarget {n : Node} {e : EdgeKind} (contains : e.isContainment = true)
    (has : e ∈ n.edgeKinds) (t : Target) : (n.addTarget e t).holds e = n.holds e ++ [t.id] := by
  have many := EdgeKind.isSingle_of_isContainment contains
  simp [holds, addTarget, targets_mapTargets_same has, contains, many]

/-- A node lists the far end of a removed containment edge once less. -/
theorem holds_removeTarget {n : Node} {e : EdgeKind} (contains : e.isContainment = true)
    (has : e ∈ n.edgeKinds) (target : NodeId) :
    (n.removeTarget e target).holds e = (n.holds e).erase target := by
  have same : (fun t : Target => decide (t.id = target)) = (fun x => target == x) ∘ Target.id := by
    funext t
    simp [eq_comm, beq_eq_decide]
  simp only [holds, removeTarget, if_pos contains, targets_mapTargets_same has, same,
    List.erase_eq_eraseP, List.eraseP_map]

end Node

namespace NodeTable

/-- What a table of nodes says about containment. -/
def nesting (t : NodeTable) : Nesting where
  has id := (t.find? id).isSome
  parent id := (t.find? id).bind Node.parent
  held e id := (t.find? id).elim [] fun n => n.holds e

variable {t : NodeTable}

/-- The nesting of a table lists what its nodes list under containment kinds. -/
theorem mem_held_nesting {e : EdgeKind} {source target : NodeId} :
    target ∈ t.nesting.held e source ↔ e.isContainment = true ∧ t.Lists e source target := by
  change target ∈ (t.find? source).elim [] _ ↔ _
  unfold Lists Node.holds
  cases found : t.find? source with
  | none => simp
  | some n => by_cases contains : e.isContainment = true <;> simp [contains]

/-- An empty table has no nesting. -/
theorem nesting_empty : empty.nesting = .nothing := by
  unfold nesting Nesting.nothing
  simp

/-- A fresh node stands on its own. -/
theorem nesting_insert {id : NodeId} (hole : t.find? id = none) (kind : NodeKind) :
    (t.insert id (.fresh id kind)).nesting = t.nesting.make id := by
  have alone : (Node.fresh id kind).parent = none := rfl
  unfold nesting Nesting.make
  refine Nesting.ext (funext fun x => ?_) (funext fun x => ?_) (funext₂ fun e x => ?_) <;>
    by_cases same : x = id <;> simp [same, hole, alone]

/-- A change that keeps the parent and the containment edges of a node keeps the nesting. -/
theorem nesting_update {id : NodeId} {f : Node → Node}
    (parent : ∀ n, t.find? id = some n → (f n).parent = n.parent)
    (holds : ∀ n, t.find? id = some n → ∀ e, (f n).holds e = n.holds e) :
    (t.update id f).nesting = t.nesting := by
  unfold nesting
  cases found : t.find? id with
  | none => rw [update_eq_self found]
  | some n =>
    refine Nesting.ext (funext fun x => ?_) (funext fun x => ?_) (funext₂ fun e x => ?_) <;>
      by_cases same : x = id <;> simp [same, found, parent n found, holds n found]

/-- A change of what a node lists under one containment kind. -/
theorem nesting_rehold {e : EdgeKind} {id : NodeId} {n : Node} {f : Node → Node}
    (change : List NodeId → List NodeId) (found : t.find? id = some n)
    (parent : (f n).parent = n.parent) (here : (f n).holds e = change (n.holds e))
    (others : ∀ k ≠ e, (f n).holds k = n.holds k) :
    (t.update id f).nesting =
      { t.nesting with
        held := fun k x =>
          if k = e ∧ x = id then change (t.nesting.held k x) else t.nesting.held k x } := by
  unfold nesting
  refine Nesting.ext (funext fun x => ?_) (funext fun x => ?_) (funext₂ fun k x => ?_)
  · by_cases same : x = id <;> simp [same, found]
  · by_cases same : x = id <;> simp [same, found, parent]
  · by_cases same : x = id
    · by_cases kind : k = e
      · simp [same, kind, found, here]
      · simp [same, kind, found, others k kind]
    · simp [same]

/-- A change of the parent of a node. -/
theorem nesting_reparent {id : NodeId} {n : Node} {f : Node → Node} (found : t.find? id = some n)
    (holds : ∀ e, (f n).holds e = n.holds e) :
    (t.update id f).nesting =
      { t.nesting with parent := fun x => if x = id then (f n).parent else t.nesting.parent x } := by
  unfold nesting
  refine Nesting.ext (funext fun x => ?_) (funext fun x => ?_) (funext₂ fun e x => ?_) <;>
    by_cases same : x = id <;> simp [same, found, holds]

/-- One more containment edge, with all that follows from it. -/
theorem nesting_put {e : EdgeKind} {source target : NodeId} {value : Option EdgeValue} {n far : Node}
    (contains : e.isContainment = true) (found : t.find? source = some n) (has : e ∈ n.edgeKinds)
    (there : t.find? target = some far) :
    ((t.update source fun n => n.addTarget e ⟨target, value⟩).update target
      (Node.adopted ⟨source, e⟩)).nesting = t.nesting.put e source target := by
  have added : (t.update source fun n => n.addTarget e ⟨target, value⟩).nesting = _ :=
    nesting_rehold (fun ids => ids ++ [target]) found rfl
      (Node.holds_addTarget contains has ⟨target, value⟩)
      fun k other => n.holds_mapTargets (fun same => absurd same other) _
  obtain ⟨far, there⟩ : ∃ far, (t.update source fun n => n.addTarget e ⟨target, value⟩).find?
      target = some far := by
    rw [find?_update]
    split
    · exact ⟨_, congrArg (Option.map _) found⟩
    · exact ⟨far, there⟩
  rw [nesting_reparent there fun _ => rfl, added]
  rfl

/-- A node that is freed from its parent loses nothing else. -/
theorem nesting_freed (source target : NodeId) :
    (t.update target (Node.freed source)).nesting =
      { t.nesting with
        parent := fun x =>
          if x = target ∧ (t.nesting.parent x).map Parent.id = some source then none
          else t.nesting.parent x } := by
  cases there : t.find? target with
  | none =>
    rw [update_eq_self there]
    refine Nesting.ext rfl (funext fun x => (if_neg ?_).symm) rfl
    rintro ⟨rfl, parent⟩
    simp [nesting, there] at parent
  | some far =>
    have holds : ∀ e, (far.freed source).holds e = far.holds e := by
      intro e
      rw [Node.freed_eq]
      rfl
    have before : t.nesting.parent target = far.parent := by simp [nesting, there]
    rw [nesting_reparent there holds]
    refine Nesting.ext rfl (funext fun x => ?_) rfl
    by_cases same : x = target
    · subst same
      simp only [if_true, true_and, before]
      unfold Node.freed
      split
      · next given => exact (if_pos given).symm
      · next given => exact (if_neg given).symm
    · simp only [same, false_and, if_false]

/-- One containment edge less, with all that follows from it. -/
theorem nesting_take {e : EdgeKind} {source target : NodeId} {n : Node}
    (contains : e.isContainment = true) (found : t.find? source = some n) (has : e ∈ n.edgeKinds) :
    ((t.update source fun n => n.removeTarget e target).update target
      (Node.freed source)).nesting = t.nesting.take e source target := by
  have removed : (t.update source fun n => n.removeTarget e target).nesting = _ :=
    nesting_rehold (fun ids => ids.erase target) found rfl
      (Node.holds_removeTarget contains has target)
      fun k other => n.holds_mapTargets (fun same => absurd same other) _
  rw [nesting_freed, removed]
  rfl

end NodeTable

end CodeGraph
