import CodeGraph.Proofs.LimitedSinks

/-!
# What a saved graph depends on

While the filter of a graph is out of force, no state of it is looked at: every walk goes by the nodes
alone (`Graph.walkFrom_turnFilterOff`). A graph is saved by such a walk, and the walk asks neither for
an index of incoming edges nor for the record of values. So two graphs with the same nodes, texts and
language have the same file, whatever is hidden in them and whether or not their filters are in force.
Main statement: `Graph.saved_bytes_agree`.
-/

set_option autoImplicit false

namespace CodeGraph

/-- A machine answers like itself. -/
theorem Agrees.refl {τ : Type} (watch : Watcher τ) : Agrees Eq watch watch := by
  rintro s _ step rfl
  exact ⟨rfl, rfl⟩

/-- Walks that are alike for one machine are the same. -/
theorem Walk.Alike.eq {τ : Type} {w v : Walk τ} (alike : Walk.Alike Eq w v) : w = v := by
  obtain ⟨watcher, visited, pending, progress⟩ := alike
  cases w
  cases v
  cases watcher
  cases visited
  cases pending
  cases progress
  rfl

namespace Graph

variable {g h : Graph}

/-- Without a filter in force a walk goes by the nodes alone. -/
theorem walkFrom_turnFilterOff {τ : Type} (nodes : g.nodes = h.nodes) (plan : WalkPlan)
    (watch : Watcher τ) (start : τ) (root : Option Node) (patience : Nat) :
    g.turnFilterOff.walkFrom plan watch start root patience =
      h.turnFilterOff.walkFrom plan watch start root patience := by
  have hides : ∀ id, plan.hides g.turnFilterOff id = plan.hides h.turnFilterOff id := fun _ => rfl
  have same : g.turnFilterOff.nodes = h.turnFilterOff.nodes := nodes
  exact (walkFrom_parallel (Agrees.refl watch) same hides rfl root patience).eq

/-- Graphs with the same nodes write the same records. -/
theorem writeNodes_eq (nodes : g.nodes = h.nodes) (sink : Sink) :
    GraphFile.writeNodes g sink = GraphFile.writeNodes h sink := by
  unfold GraphFile.writeNodes GraphFile.writeShown
  rw [walkFrom_turnFilterOff nodes]

/-- Two graphs with the same nodes, the same texts under the same keys and the same language are saved
alike with any headers on any sink: the same headers are filled in, and the sink is left with the same
bytes and the same outcome. Their filters, what these hide and whether they are in force, their
indexes and their records of values do not matter. -/
theorem saved_bytes_agree (nodes : g.nodes = h.nodes) (texts : g.texts.toList = h.texts.toList)
    (language : g.language = h.language) (headers : List Header) (sink : Sink) :
    (g.saveInPlace headers sink).1 = (h.saveInPlace headers sink).1 ∧
      (g.saveInPlace headers sink).2.1 = (h.saveInPlace headers sink).2.1 := by
  -- only the entries of a text table are stored
  have stored : g.texts.save = h.texts.save := by
    unfold TextTable.save
    rw [texts]
  have same : g.save headers sink = h.save headers sink := by
    unfold save
    simp only [language, writeNodes_eq nodes, stored]
  rw [saveInPlace_eq, saveInPlace_eq, same]
  exact ⟨rfl, rfl⟩

/-- A graph with a hidden file, and the same graph with a filter that is out of force and hides nothing,
with an index and without a record of values, have the same file. The record of the hidden file is in
it. -/
theorem saved_bytes_agree_hidden :
    let g := (new .java).after [.createFile "Main", .hide (madeId 0)]
    let h := { g with
      filter := .empty, filterOn := false, index := some (.build g.nodes none), singletons := [] }
    (g.isFiltered (madeId 0) = true ∧ h.isFiltered (madeId 0) = false ∧ g.index = none ∧
      g.singletons ≠ h.singletons) ∧
      (g.saveInPlace [] .unlimited).2.1 = (h.saveInPlace [] .unlimited).2.1 ∧
      (h.saveInPlace [] .unlimited).2.1.written.length = 386 := by
  dsimp only
  generalize hidden : (new .java).after [.createFile "Main", .hide (madeId 0)] = g
  have facts : g.isFiltered (madeId 0) = true ∧ g.index = none ∧ g.singletons ≠ [] ∧
      (g.saveInPlace [] .unlimited).2.1.written.length = 386 := by
    rw [← hidden]
    decide +kernel
  obtain ⟨filtered, noIndex, values, length⟩ := facts
  obtain ⟨-, same⟩ := saved_bytes_agree (g := g)
    (h := { g with
      filter := .empty, filterOn := false, index := some (.build g.nodes none), singletons := [] })
    rfl rfl rfl [] .unlimited
  exact ⟨⟨filtered, rfl, noIndex, values⟩, same, same ▸ length⟩

end Graph

end CodeGraph
