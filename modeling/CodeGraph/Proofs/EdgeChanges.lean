import CodeGraph.Proofs.Edits

/-!
# What edges change

Adding or taking away an edge changes the far ends of one node, the parent of another if the edge
is a containment edge, and the index of incoming edges. Since no containment kind allows only one
edge, replacing an edge never touches a parent. Main statements: `nodes_link`,
`nodes_unlink`, `index_link` and `index_unlink`.
-/

set_option autoImplicit false

namespace CodeGraph

/-- A containment kind allows any number of edges. -/
theorem EdgeKind.isSingle_of_isContainment {e : EdgeKind} (contains : e.isContainment = true) :
    e.isSingle = false := by
  revert contains
  cases e <;> decide

/-- A kind of which a node has one edge at most is no containment kind. -/
theorem EdgeKind.isContainment_of_isSingle {e : EdgeKind} (single : e.isSingle = true) :
    e.isContainment = false := by
  by_contra contains
  rw [isSingle_of_isContainment (Bool.not_eq_false _ ▸ contains)] at single
  cases single

/-- An edge of such a kind carries nothing. -/
theorem EdgeKind.carries_of_isSingle {e : EdgeKind} (single : e.isSingle = true) :
    e.carries = .nothing := by
  revert single
  cases e <;> decide

/-- Containment edges carry nothing. -/
theorem EdgeKind.carries_of_isContainment {e : EdgeKind} (contains : e.isContainment = true) :
    e.carries = .nothing := by
  revert contains
  cases e <;> decide

namespace Node

/-- The node below another one. -/
def adopted (parent : Parent) (n : Node) : Node :=
  { n with parent := some parent }

/-- The node that one parent has given up; any other parent stays. -/
def freed (parent : NodeId) (n : Node) : Node :=
  if n.parentId? = some parent then { n with parent := none } else n

/-- Giving up a parent changes nothing but the parent. -/
theorem freed_eq (parent : NodeId) (n : Node) :
    n.freed parent = { n with parent := (n.freed parent).parent } := by
  unfold freed
  split <;> rfl

/-- A node that a parent has given up is not below it. -/
theorem parent_freed {parent : NodeId} {n : Node} {p : Parent}
    (kept : (n.freed parent).parent = some p) : n.parent = some p ∧ p.id ≠ parent := by
  unfold freed at kept
  split at kept
  · cases kept
  · next other =>
    refine ⟨kept, fun same => other ?_⟩
    unfold parentId?
    rw [kept, ← same]
    rfl

end Node

namespace Graph

/-- Unlinking changes nothing of the nodes but the parent of what a containment edge led to. -/
theorem nodes_unlink (g : Graph) (e : EdgeKind) (source target : NodeId) :
    (g.unlink e source target).nodes =
      if e.isContainment then g.nodes.update target (Node.freed source) else g.nodes := by
  unfold unlink
  split <;> rfl

/-- Unlinking takes the edge out of the index. -/
theorem index_unlink (g : Graph) (e : EdgeKind) (source target : NodeId) :
    (g.unlink e source target).index = g.index.map fun x => x.removeEdge e source target := by
  unfold unlink
  split <;> rfl

/-- The nodes after an edge has been added. -/
theorem nodes_link (g : Graph) (e : EdgeKind) (source : NodeId) (t : Target) :
    (g.link e source t).nodes =
      if e.isContainment then
        (g.nodes.update source fun n => n.addTarget e t).update t.id (Node.adopted ⟨source, e⟩)
      else
        g.nodes.update source fun n => n.addTarget e t := by
  unfold link
  by_cases contains : e.isContainment = true
  · -- a containment kind replaces no edge
    have nothing : g.replacedTarget? e source = none := by
      unfold replacedTarget? Node.replaced?
      rw [EdgeKind.isSingle_of_isContainment contains]
      split <;> rfl
    simp only [nothing, if_pos contains]
    rfl
  · simp only [if_neg contains]
    split
    · exact (nodes_unlink _ e source _).trans (if_neg contains)
    · rfl

/-- The index after an edge has been added. -/
theorem index_link (g : Graph) (e : EdgeKind) (source : NodeId) (t : Target) :
    (g.link e source t).index = g.index.map fun x =>
      (match g.replacedTarget? e source with
        | some previous => x.removeEdge e source previous
        | none => x).insertEdge e source t.id := by
  have unlinked : (match g.replacedTarget? e source with
      | some previous =>
        (g.updateNode source fun n => n.addTarget e t).unlink e source previous
      | none => g.updateNode source fun n => n.addTarget e t).index =
      g.index.map fun x =>
        match g.replacedTarget? e source with
        | some previous => x.removeEdge e source previous
        | none => x := by
    cases g.replacedTarget? e source with
    | none => exact Option.map_id'.symm
    | some previous => exact index_unlink _ e source previous
  have mapped := congrArg (Option.map fun x : IncomingIndex => x.insertEdge e source t.id) unlinked
  rw [Option.map_map] at mapped
  unfold link
  by_cases contains : e.isContainment = true
  · simp only [if_pos contains]
    exact mapped
  · simp only [if_neg contains]
    exact mapped

/-- Changing a node keeps the texts. -/
theorem texts_updateNode (g : Graph) (id : NodeId) (f : Node → Node) :
    (g.updateNode id f).texts = g.texts :=
  rfl

/-- Inserting a node keeps the texts. -/
theorem texts_insertNode (g : Graph) (kind : NodeKind) (id : NodeId) :
    (g.insertNode kind id).texts = g.texts :=
  rfl

/-- Unlinking keeps the texts. -/
theorem texts_unlink (g : Graph) (e : EdgeKind) (source target : NodeId) :
    (g.unlink e source target).texts = g.texts :=
  unlink_preserves (P := fun h => h.texts = g.texts)
    (fun h id f same => (texts_updateNode h id f).trans same) (fun _ _ same => same) e source target
    rfl

/-- Linking keeps the texts. -/
theorem texts_link (g : Graph) (e : EdgeKind) (source : NodeId) (t : Target) :
    (g.link e source t).texts = g.texts :=
  link_preserves (P := fun h => h.texts = g.texts)
    (fun h id f same => (texts_updateNode h id f).trans same) (fun _ _ same => same) e source t rfl

end Graph

end CodeGraph
