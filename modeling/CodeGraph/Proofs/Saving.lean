import CodeGraph.Proofs.FileHeader
import CodeGraph.Proofs.WalkExtent

/-!
# What a saved graph consists of

A saved graph has records of nodes of the graph, and none twice. If from every node steps from parent
to parent lead to a node without a parent, it has a record for every node, whatever other edges there
are. Main statements: `GraphFile.mem_savedNodes` and `Graph.exists_save`.
-/

set_option autoImplicit false

namespace CodeGraph

namespace Graph

/-- Whether fewer than `steps` steps from parent to parent lead from a node to one without a
parent. -/
def reachesRoot (g : Graph) : (steps : Nat) → NodeId → Bool
  | 0, _ => false
  | steps + 1, id =>
    match g.find? id with
    | none => false
    | some n =>
      match n.parent with
      | none => true
      | some p => g.reachesRoot steps p.id

/-- From every node the chain of parents comes to an end. -/
def Rooted (g : Graph) : Prop :=
  ∀ id n, g.find? id = some n → ∃ steps, g.reachesRoot steps id = true

/-- A node whose chain of parents ends belongs to what a walk over the whole graph has to cover. -/
theorem Covered.mem_of_reachesRoot {g : Graph} (sound : g.nodes.Sound) (off : g.filterOn = false)
    {plan : WalkPlan} {S : Set NodeId} (covered : g.Covered plan none S) (steps : Nat) {id : NodeId}
    (reaches : g.reachesRoot steps id = true) : id ∈ S := by
  have shown : ∀ id, ¬ plan.Filtered g id := fun id filtered =>
    absurd (off.symm.trans filtered.2.1) (by decide)
  induction steps generalizing id with
  | zero => cases reaches
  | succ steps ih =>
    unfold reachesRoot at reaches
    split at reaches
    · cases reaches
    · next n found =>
      split at reaches
      · next root => exact covered.starts rfl id n found root (shown id)
      · next p parent =>
        -- the parent is covered, and it lists the node among its containment edges
        obtain ⟨contains, m, above, far, mem, rfl⟩ := sound.backed id n p found parent
        have distinct := (sound.wellFormed p.id m above).distinct
        have edge : ⟨p.edge, m.id, far.id, far.value⟩ ∈ m.edges :=
          (Node.mem_edges_iff distinct _).2 ⟨rfl, mem⟩
        exact covered.closed p.id m (ih reaches) above _ edge n found (shown far.id)
          (Or.inl contains)

end Graph

namespace GraphFile

open CodeGraph.Graph

/-- Writing records to a sink without a limit sees the walk that a mere lister sees. -/
theorem writer_agrees (before : Bytes) :
    Agrees (fun w nodes => w.sink = .holding (before ++ nodes.flatMap Node.record))
      RecordWriter.visitor.watch Watcher.lister := by
  intro w nodes step holds
  cases step with
  | enter n =>
    have put : w.sink.put n.record =
        .holding (before ++ (nodes ++ [n]).flatMap Node.record) := by
      rw [holds, Sink.put_holding, List.append_assoc, List.flatMap_append, List.flatMap_singleton]
    simp only [Visitor.watch, RecordWriter.visitor, RecordWriter.write, put, Watcher.lister]
    exact ⟨rfl, rfl⟩
  | edge e | endEdge e | leave n => exact ⟨holds, rfl⟩

/-- The nodes that a saved graph has records of, in the order of the records. -/
def savedNodes (g : Graph) : List Node :=
  (g.turnFilterOff.walkFrom { safe := true } Watcher.lister [] none 0).watcher

/-- The records of the saved nodes are all that is written for the nodes. -/
theorem writeNodes_holding (g : Graph) (before : Bytes) :
    writeNodes g (.holding before) =
      .holding (before ++ (savedNodes g).flatMap Node.record) := by
  have start : (RecordWriter.mk (.holding before) 0).sink =
      .holding (before ++ ([] : List Node).flatMap Node.record) := by
    rw [List.flatMap_nil, List.append_nil]
  exact (g.turnFilterOff.walkFrom_alike (writer_agrees before) { safe := true } start none 0).watcher

/-- The saved nodes are those that a careful walk without a filter lists. -/
theorem listsExactly_savedNodes {g : Graph} (indexed : g.nodes.Indexed) :
    g.turnFilterOff.ListsExactly { safe := true } none
      (g.turnFilterOff.walkFrom { safe := true } Watcher.lister [] none 0) := by
  have same : g.turnFilterOff.nodes.Indexed := indexed
  have safe : ({ safe := true } : WalkPlan).safe = true := rfl
  have nowhere : ∀ n, (none : Option Node) = some n → g.turnFilterOff.find? n.id = some n := by
    intro n absent
    cases absent
  exact listsExactly_walkFrom same safe nowhere 0

/-- No node is saved twice. -/
theorem nodup_savedNodes {g : Graph} (indexed : g.nodes.Indexed) :
    ((savedNodes g).map Node.id).Nodup :=
  (listsExactly_savedNodes indexed).once

/-- Every saved node is one of the graph. -/
theorem find?_of_mem_savedNodes {g : Graph} (indexed : g.nodes.Indexed) {n : Node}
    (mem : n ∈ savedNodes g) : g.find? n.id = some n :=
  (listsExactly_savedNodes indexed).found n mem

/-- Every node is saved, if all chains of parents end. -/
theorem mem_savedNodes {g : Graph} (sound : g.nodes.Sound) (rooted : g.Rooted) (n : Node) :
    n ∈ savedNodes g ↔ g.find? n.id = some n := by
  refine ⟨find?_of_mem_savedNodes sound.indexed, fun found => ?_⟩
  obtain ⟨steps, reaches⟩ := rooted n.id n found
  have same : ∀ steps id, g.turnFilterOff.reachesRoot steps id = g.reachesRoot steps id := by
    intro steps
    induction steps with
    | zero => exact fun _ => rfl
    | succ steps ih =>
      intro id
      unfold reachesRoot
      simp only [ih]
      rfl
  have covered := (listsExactly_savedNodes sound.indexed).least.1
  have seen := covered.mem_of_reachesRoot (g := g.turnFilterOff) sound rfl steps
    ((same steps n.id).trans reaches)
  obtain ⟨m, mem, own⟩ := List.mem_map.1 seen
  have there := find?_of_mem_savedNodes sound.indexed mem
  rw [own, found] at there
  exact Option.some.inj there ▸ mem

end GraphFile

/-- If the header records can be written, then so can the graph: behind them stand the records of the
saved nodes, and the texts. -/
theorem Graph.save_of_writeHeaders {g : Graph} {headers filled : List Header} {header : Bytes}
    (written : ∀ before, GraphFile.writeHeaders g.language headers (.holding before) =
      (filled, .holding (before ++ header))) :
    g.save headers .unlimited = (filled, .holding (GraphFile.magic ++ (header ++
      ((GraphFile.savedNodes g).flatMap Node.record ++ GraphFile.endOfNodes ++ g.texts.save)))) := by
  have start : Sink.unlimited = .holding [] := rfl
  unfold save
  simp only [start, Sink.put_holding, written, GraphFile.writeNodes_holding, List.nil_append,
    List.append_assoc]

/-- A graph can be saved: the file has a header that tells the language, the records of the saved
nodes, and the texts. -/
theorem Graph.exists_save (g : Graph) :
    ∃ header : Bytes,
      (g.save [] .unlimited).2 = .holding (GraphFile.magic ++ (header ++
        ((GraphFile.savedNodes g).flatMap Node.record ++ GraphFile.endOfNodes ++ g.texts.save))) ∧
      ∀ headers rest, ∃ scan, GraphFile.loadHeaders headers (header ++ rest) = (scan, .ok rest) ∧
        GraphFile.acceptedLanguage scan.properties = .ok g.language := by
  obtain ⟨header, written, read⟩ := GraphFile.loadHeaders_writeHeaders g.language
  exact ⟨header, congrArg Prod.snd (save_of_writeHeaders written), read⟩

end CodeGraph
