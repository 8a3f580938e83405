import CodeGraph.Proofs.FilterStates
import CodeGraph.Proofs.History

/-!
# The effect of hiding and showing

Hiding a node puts into one state exactly the ids that containment edges reach from it, and showing a
node exactly these and its ancestors. Every other id is filtered afterwards if it was before, and the
filter grows only as far as the ids that are set ask for, which need not be those of nodes. Whatever
cycles, shared children and holes the table of nodes has, the search for what containment reaches
comes to its end by itself; the climb from parent to parent does so if the chain of parents ends.
Main statement: `Filter.hide_reveal_exact`.
-/

set_option autoImplicit false

namespace CodeGraph

namespace Filter

/-- One filter comes from another by putting exactly some ids into a state. -/
structure Puts (f h : Filter) (ids : NodeId → Prop) (state : FilterState) : Prop where
  put : ∀ x, ids x → h.state? x = some state
  /-- Every other id is filtered if it was. -/
  kept : ∀ x, ¬ ids x → h.isFiltered x = f.isFiltered x
  /-- The filter is no longer than it has to be. -/
  size : ∀ n, h.size ≤ n ↔ f.size ≤ n ∧ ∀ x, ids x → x.index < n

/-- Setting the states of several ids does nothing else. -/
theorem puts_setAll (f : Filter) (ids : List NodeId) (state : FilterState) :
    f.Puts (f.setAll ids state) (· ∈ ids) state where
  put x mem := by
    have decided := f.isFiltered_setAll ids state x
    rw [state?_of_index_lt _ (f.index_lt_size_setAll mem state)]
    cases state with
    | filtered => rw [if_pos (decided.2 (Or.inl ⟨mem, rfl⟩))]
    | notFiltered =>
      have shown : ¬ (f.setAll ids .notFiltered).isFiltered x = true := by
        rw [decided]
        rintro (⟨-, absurd⟩ | ⟨outside, -⟩)
        · cases absurd
        · exact outside mem
      rw [if_neg shown]
  kept x outside := by
    rw [Bool.eq_iff_iff, isFiltered_setAll]
    simp [outside]
  size n := by
    constructor
    · intro le
      refine ⟨Nat.le_trans (f.size_le_setAll ids state) le, fun x mem => ?_⟩
      exact Nat.lt_of_lt_of_le (f.index_lt_size_setAll mem state) le
    · rintro ⟨covered, inside⟩
      exact size_setAll_le covered inside state

/-- What is put on some ids is put on the same ids however they are described. -/
theorem Puts.congr {f h : Filter} {ids ids' : NodeId → Prop} {state : FilterState}
    (puts : f.Puts h ids state) (same : ∀ x, ids x ↔ ids' x) : f.Puts h ids' state := by
  have equal : ids = ids' := funext fun x => propext (same x)
  rw [← equal]
  exact puts

/-- Hiding an existing node comes to its end by itself: the search for what containment reaches from
it ends, and what was found is filtered. -/
def HideEnds (f : Filter) (nodes : NodeTable) (id : NodeId) (h : Filter) : Prop :=
  nodes.contains id = true ∧
    ∃ ids, nodes.SearchEnds [id] .empty [] ids ∧ h = f.setAll ids .filtered

/-- Showing an existing node comes to its end by itself: the search for what containment reaches from
it ends, what was found is shown, and the climb to its ancestors ends too. -/
def RevealEnds (f : Filter) (nodes : NodeTable) (id : NodeId)
    (result : Filter × Except Error Unit) : Prop :=
  ∃ n ids count, nodes.find? id = some n ∧ nodes.SearchEnds [id] .empty [] ids ∧
    ClimbEnds nodes count n.parentId? (f.setAll ids .notFiltered) result

/-- In every table of nodes, hiding a node ends and succeeds, and filters exactly what containment
reaches from it. If the ancestors of the node exist and come to an end, showing it ends and succeeds,
and shows exactly what containment reaches from it and its ancestors. -/
theorem hide_reveal_exact (f : Filter) (nodes : NodeTable) (id : NodeId)
    (there : nodes.contains id = true) :
    (∃ h, f.hide nodes id = (h, .ok ()) ∧ f.HideEnds nodes id h ∧
      f.Puts h (nodes.Reaches id) .filtered) ∧
    ∀ above, AncestorsBy nodes.nesting.parent id above → (∀ a ∈ above, nodes.contains a = true) →
      ∃ h, f.reveal nodes id = (h, .ok ()) ∧ f.RevealEnds nodes id (h, .ok ()) ∧
        f.Puts h (fun x => nodes.Reaches id x ∨ x ∈ above) .notFiltered := by
  obtain ⟨n, found⟩ := Option.isSome_iff_exists.1 there
  have search := nodes.searchEnds_subtree id
  constructor
  · refine ⟨_, f.hide_of_find? found, ⟨there, _, search, rfl⟩, ?_⟩
    exact (f.puts_setAll (nodes.subtree id) .filtered).congr (nodes.mem_subtree_iff id)
  · intro above ancestors exist
    have climb := climbEnds_of_ancestors ancestors exist found
    refine ⟨_, f.reveal_of_ancestors ancestors exist found,
      ⟨n, _, above.length, found, search, climb _⟩, ?_⟩
    -- the two rounds of setting are one
    have once : (f.setAll (nodes.subtree id) .notFiltered).setAll above .notFiltered =
        f.setAll (nodes.subtree id ++ above) .notFiltered := List.foldl_append.symm
    rw [once]
    refine (f.puts_setAll _ .notFiltered).congr fun x => ?_
    rw [List.mem_append, nodes.mem_subtree_iff]

open CodeGraph.Graph (madeId)

/-- A package below a parent that contains some ids. -/
def packageHolding (id : NodeId) (parent : Option NodeId) (ids : List NodeId) : Node :=
  ids.foldl (fun n x => n.addTarget .scopeHasMember { id := x })
    { Node.fresh id .package with parent := parent.map fun p => ⟨p, .scopeHasMember⟩ }

/-- Two packages that contain each other and share a third one, which contains an id beyond all nodes.
The parent of the first one is a package that does not list it. -/
def tangledNodes : NodeTable :=
  [packageHolding (madeId 0) (some (madeId 3)) [madeId 1, madeId 2],
    packageHolding (madeId 1) (some (madeId 0)) [madeId 0, madeId 2],
    packageHolding (madeId 2) none [madeId 9],
    packageHolding (madeId 3) none []].foldl (fun t n => t.insert n.id n) .empty

/-- Around the cycle the id beyond all nodes is hidden and shown, the parent is shown, and what lies
elsewhere stays as it is. -/
theorem hide_reveal_exact_tangled :
    let f := empty.setAll [madeId 1, madeId 3, madeId 4] .filtered
    tangledNodes.contains (madeId 0) = true ∧
      (∃ h, f.hide tangledNodes (madeId 0) = (h, .ok ()) ∧ h.state? (madeId 9) = some .filtered ∧
        h.isFiltered (madeId 8) = f.isFiltered (madeId 8)) ∧
      ∃ h, f.reveal tangledNodes (madeId 0) = (h, .ok ()) ∧
        h.state? (madeId 9) = some .notFiltered ∧ h.state? (madeId 3) = some .notFiltered ∧
        h.isFiltered (madeId 4) = true := by
  intro f
  have facts : tangledNodes.contains (madeId 0) = true ∧
      tangledNodes.nesting.parent (madeId 0) = some ⟨madeId 3, .scopeHasMember⟩ ∧
      tangledNodes.nesting.parent (madeId 3) = none ∧ tangledNodes.contains (madeId 3) = true ∧
      madeId 9 ∈ tangledNodes.subtree (madeId 0) ∧ madeId 8 ∉ tangledNodes.subtree (madeId 0) ∧
      madeId 4 ∉ tangledNodes.subtree (madeId 0) ∧ madeId 4 ∉ [madeId 3] ∧
      f.isFiltered (madeId 4) = true := by
    decide +kernel
  obtain ⟨there, up, top, above, beyond, gap, elsewhere, notAbove, filtered⟩ := facts
  rw [NodeTable.mem_subtree_iff] at beyond gap elsewhere
  obtain ⟨⟨h, hidden, -, hides⟩, shows⟩ := hide_reveal_exact f tangledNodes (madeId 0) there
  obtain ⟨k, shown, -, reveals⟩ := shows [madeId 3] (.up up (.top top))
    fun a mem => List.mem_singleton.1 mem ▸ above
  refine ⟨there, ⟨h, hidden, hides.put _ beyond, hides.kept _ gap⟩, k, shown,
    reveals.put _ (Or.inl beyond), reveals.put _ (Or.inr List.mem_cons_self), ?_⟩
  rw [reveals.kept _ fun either => either.elim elsewhere notAbove]
  exact filtered

end Filter

end CodeGraph
