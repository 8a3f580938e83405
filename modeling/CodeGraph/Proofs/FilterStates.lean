import CodeGraph.Proofs.Ancestry
import CodeGraph.Proofs.Subtree

/-!
# What hiding and showing do to the filter

A filter is known by the ids that it filters and by the number of ids that it covers. Hiding a node
adds what containment reaches from it; showing a node takes away what containment reaches from it
and its ancestors, if these exist and come to an end: then so does the climb through them
(`Filter.climbEnds_of_ancestors`). Main statements: `Graph.isFiltered_withHidden` and
`Graph.isFiltered_reveal`.
-/

set_option autoImplicit false

namespace CodeGraph

namespace Filter

variable (f : Filter)

/-- Ids beyond the last state are not filtered, so the state of an id decides. -/
theorem isFiltered_iff (id : NodeId) : f.isFiltered id = true ↔ f.table.get id = .filtered := by
  have fill : f.table.fill = .notFiltered := rfl
  unfold isFiltered state? IdTable.get
  rw [decide_eq_true_iff, fill]
  cases f.table.get? id <;> simp

/-- Setting the state of an id filters that id or not, and no other. -/
theorem isFiltered_set (id x : NodeId) (state : FilterState) :
    (f.set id state).isFiltered x = true ↔
      x = id ∧ state = .filtered ∨ x ≠ id ∧ f.isFiltered x = true := by
  have written : (f.set id state).table = f.table.set id state := rfl
  rw [isFiltered_iff, isFiltered_iff, written]
  by_cases same : x = id
  · simp [same]
  · simp [same, IdTable.get_set_other]

/-- Setting the states of several ids filters these or not, and no others. -/
theorem isFiltered_setAll (ids : List NodeId) (state : FilterState) (x : NodeId) :
    (f.setAll ids state).isFiltered x = true ↔
      x ∈ ids ∧ state = .filtered ∨ x ∉ ids ∧ f.isFiltered x = true := by
  induction ids generalizing f with
  | nil => simp [setAll]
  | cons id ids ih =>
    have next : f.setAll (id :: ids) state = (f.set id state).setAll ids state := rfl
    rw [next, ih, isFiltered_set, List.mem_cons]
    tauto

/-- A filter grows just enough for the id that is set. -/
theorem size_set (id : NodeId) (state : FilterState) :
    (f.set id state).size = max f.size (id.index + 1) :=
  IdTable.size_set f.table id state

/-- Setting states makes no filter shorter. -/
theorem size_le_setAll (ids : List NodeId) (state : FilterState) :
    f.size ≤ (f.setAll ids state).size := by
  induction ids generalizing f with
  | nil => exact Nat.le_refl _
  | cons id ids ih =>
    have grown := f.size_set id state
    have rest := ih (f.set id state)
    have next : f.setAll (id :: ids) state = (f.set id state).setAll ids state := rfl
    rw [next]
    omega

/-- Setting states makes no filter longer than the ids that are set ask for. -/
theorem size_setAll_le {f : Filter} {bound : Nat} (covered : f.size ≤ bound) {ids : List NodeId}
    (inside : ∀ id ∈ ids, id.index < bound) (state : FilterState) :
    (f.setAll ids state).size ≤ bound := by
  refine List.foldlRecOn (motive := fun f : Filter => f.size ≤ bound) ids _ covered ?_
  intro f covered id mem
  rw [size_set]
  exact Nat.max_le.2 ⟨covered, inside id mem⟩

/-- A filter has room for every id that was set. -/
theorem index_lt_size_setAll {ids : List NodeId} {id : NodeId} (mem : id ∈ ids)
    (state : FilterState) : id.index < (f.setAll ids state).size := by
  obtain ⟨before, after, rfl⟩ := List.append_of_mem mem
  have split : f.setAll (before ++ id :: after) state =
      ((f.setAll before state).set id state).setAll after state := List.foldl_append
  have here : id.index < ((f.setAll before state).set id state).size := by
    rw [size_set]
    exact Nat.lt_of_lt_of_le (Nat.lt_succ_self _) (Nat.le_max_right _ _)
  rw [split]
  exact Nat.lt_of_lt_of_le here (size_le_setAll _ _ _)

/-- An id that the filter covers is filtered or not. -/
theorem state?_of_index_lt {id : NodeId} (covered : id.index < f.size) :
    f.state? id = some (if f.isFiltered id then .filtered else .notFiltered) := by
  have inside : f.state? id = some f.states[id.index] := Array.getElem?_eq_getElem covered
  unfold isFiltered
  rw [inside]
  cases f.states[id.index] <;> rfl

/-! ## Nodes of a table -/

variable {nodes : NodeTable}

/-- A node that is there is hidden. -/
theorem hide_of_find? {id : NodeId} {n : Node} (found : nodes.find? id = some n) :
    f.hide nodes id = (f.setAll (nodes.subtree id) .filtered, .ok ()) := by
  unfold hide setSubtree
  rw [found]

/-- Showing ancestors sets the states of a chain of parents, whether or not the chain ends well. -/
theorem exists_showAncestors (nodes : NodeTable) (steps : Nat) (start : Option NodeId) (f : Filter) :
    ∃ above, (showAncestors nodes steps start f).1 = f.setAll above .notFiltered ∧
      ∀ a ∈ above, start = some a ∨ ∃ id n, nodes.find? id = some n ∧ n.parentId? = some a := by
  induction steps generalizing start f with
  | zero => exact ⟨[], rfl, fun a mem => absurd mem List.not_mem_nil⟩
  | succ steps ih =>
    cases start with
    | none => exact ⟨[], rfl, fun a mem => absurd mem List.not_mem_nil⟩
    | some id =>
      unfold showAncestors
      cases found : nodes.find? id with
      | none => exact ⟨[id], rfl, fun a mem => Or.inl (congrArg some (List.mem_singleton.1 mem).symm)⟩
      | some n =>
        obtain ⟨above, shown, parents⟩ := ih n.parentId? (f.set id .notFiltered)
        refine ⟨id :: above, shown, List.forall_mem_cons.2 ⟨Or.inl rfl, fun a mem => ?_⟩⟩
        rcases parents a mem with first | higher
        · exact Or.inr ⟨id, n, found, first⟩
        · exact Or.inr higher

/-- A climb from parent to parent that comes to its end by itself, with the number of ids that it
marks. No steps bound it, so a climb around a cycle has no end. -/
inductive ClimbEnds (nodes : NodeTable) :
    Nat → Option NodeId → Filter → Filter × Except Error Unit → Prop
  /-- There is no parent. -/
  | top {f : Filter} : ClimbEnds nodes 0 none f (f, .ok ())
  /-- The parent does not exist. -/
  | missing {id : NodeId} {f : Filter} (hole : nodes.find? id = none) :
      ClimbEnds nodes 1 (some id) f
        (f.set id .notFiltered, .error (.noSuchNode .showNodes id.raw))
  /-- The parent exists, and the climb goes on from there. -/
  | up {id : NodeId} {n : Node} {count : Nat} {f : Filter} {result : Filter × Except Error Unit}
      (found : nodes.find? id = some n)
      (rest : ClimbEnds nodes count n.parentId? (f.set id .notFiltered) result) :
      ClimbEnds nodes (count + 1) (some id) f result

/-- A bound on the steps does not matter to a climb that ends before. -/
theorem ClimbEnds.showAncestors_eq {count : Nat} {start : Option NodeId} {f : Filter}
    {result : Filter × Except Error Unit} (ends : ClimbEnds nodes count start f result) {steps : Nat}
    (enough : count ≤ steps) : showAncestors nodes steps start f = result := by
  induction ends generalizing steps with
  | top => cases steps <;> rfl
  | missing hole =>
    obtain ⟨steps, rfl⟩ := Nat.exists_eq_add_of_le' enough
    simp only [showAncestors, hole]
  | up found _ ih =>
    obtain ⟨steps, rfl⟩ := Nat.exists_eq_succ_of_ne_zero
      (Nat.ne_of_gt (Nat.lt_of_lt_of_le (Nat.succ_pos _) enough))
    simp only [showAncestors, found]
    exact ih (Nat.le_of_succ_le_succ enough)

/-- A climb along ancestors that exist and come to an end marks them, and succeeds. -/
theorem climbEnds_of_ancestors {id : NodeId} {above : List NodeId}
    (ancestors : AncestorsBy nodes.nesting.parent id above)
    (there : ∀ a ∈ above, nodes.nesting.has a = true) {n : Node} (found : nodes.find? id = some n)
    (f : Filter) :
    ClimbEnds nodes above.length n.parentId? f (f.setAll above .notFiltered, .ok ()) := by
  induction ancestors generalizing n f with
  | @top id last =>
    have same : nodes.nesting.parent id = n.parent := congrArg (Option.bind · Node.parent) found
    have nobody : n.parentId? = none := by
      rw [Node.parentId?, same.symm.trans last]
      rfl
    rw [nobody]
    exact .top
  | @up id p above next rest ih =>
    obtain ⟨here, higher⟩ := List.forall_mem_cons.1 there
    obtain ⟨m, exists_⟩ := Option.isSome_iff_exists.1 here
    have same : nodes.nesting.parent id = n.parent := congrArg (Option.bind · Node.parent) found
    have parent : n.parentId? = some p.id := by
      rw [Node.parentId?, same.symm.trans next]
      rfl
    rw [parent]
    exact .up exists_ (ih higher exists_ _)

/-- A node whose ancestors exist and come to an end is shown with them. -/
theorem reveal_of_ancestors {id : NodeId} {above : List NodeId}
    (ancestors : AncestorsBy nodes.nesting.parent id above)
    (there : ∀ a ∈ above, nodes.nesting.has a = true) {n : Node} (found : nodes.find? id = some n) :
    f.reveal nodes id =
      ((f.setAll (nodes.subtree id) .notFiltered).setAll above .notFiltered, .ok ()) := by
  have here : nodes.nesting.has id = true := Option.isSome_iff_exists.2 ⟨n, found⟩
  have short := NodeTable.length_ancestors_lt ancestors (List.forall_mem_cons.2 ⟨here, there⟩)
  have ends := climbEnds_of_ancestors ancestors there found (f.setAll (nodes.subtree id) .notFiltered)
  rw [reveal_of_find? found]
  exact ends.showAncestors_eq (Nat.le_succ_of_le (Nat.le_of_lt short))

end Filter

namespace Graph

variable {g : Graph}

/-- A reset filter has a state for each position of the table of nodes. -/
theorem size_resetFilter (g : Graph) : g.resetFilter.filter.size = g.size := by
  have resized : (g.filter.table.resize g.size).items.size = g.size :=
    IdTable.size_resize g.filter.table g.size
  unfold resetFilter Filter.reset Filter.resize Filter.size IdTable.overwrite Filter.table
  rw [Array.size_map]
  exact resized

/-- A reset filter hides nothing. -/
theorem isFiltered_resetFilter (g : Graph) (id : NodeId) :
    g.resetFilter.filter.isFiltered id = false := by
  unfold resetFilter Filter.reset Filter.isFiltered Filter.state? IdTable.get? IdTable.overwrite
    Filter.table
  simp

/-! ## Hiding -/

/-- Hiding a node that exists hides all that containment reaches from it. -/
theorem withHidden_of_find? {id : NodeId} {n : Node} (found : g.find? id = some n) :
    g.withHidden id = .ok { g with filter := g.filter.setAll (g.nodes.subtree id) .filtered } := by
  unfold withHidden
  rw [found]

/-- A node that does not exist cannot be hidden. -/
theorem withHidden_of_missing {id : NodeId} (missing : g.find? id = none) :
    g.withHidden id = .error (.noSuchNode .hideNodes id.raw) := by
  unfold withHidden
  rw [missing]

/-- Hiding a node filters what containment reaches from it, and all that was filtered before. -/
theorem isFiltered_withHidden {h : Graph} {id : NodeId} (hidden : g.withHidden id = .ok h) (x : NodeId) :
    h.filter.isFiltered x = true ↔ g.nodes.Reaches id x ∨ g.filter.isFiltered x = true := by
  cases found : g.find? id with
  | none =>
    rw [withHidden_of_missing found] at hidden
    cases hidden
  | some n =>
    rw [withHidden_of_find? found] at hidden
    cases hidden
    rw [Filter.isFiltered_setAll, g.nodes.mem_subtree_iff]
    tauto

/-- Hiding never makes the filter smaller. -/
theorem size_le_withHidden {h : Graph} {id : NodeId} (hidden : g.withHidden id = .ok h) :
    g.filter.size ≤ h.filter.size := by
  cases found : g.find? id with
  | none =>
    rw [withHidden_of_missing found] at hidden
    cases hidden
  | some n =>
    rw [withHidden_of_find? found] at hidden
    cases hidden
    exact g.filter.size_le_setAll _ _

/-! ## Showing -/

/-- A node whose ancestors exist and come to an end is shown with them. -/
theorem reveal_of_ancestors {id : NodeId} {above : List NodeId}
    (ancestors : AncestorsBy g.nesting.parent id above)
    (there : ∀ a ∈ above, g.nesting.has a = true) {n : Node} (found : g.find? id = some n) :
    g.reveal id = (.ok (), { g with filter :=
      (g.filter.setAll (g.nodes.subtree id) .notFiltered).setAll above .notFiltered }) := by
  have shown := g.filter.reveal_of_ancestors ancestors there found
  unfold reveal
  rw [shown]

/-- A node that does not exist cannot be shown. -/
theorem reveal_of_missing {id : NodeId} (missing : g.find? id = none) :
    g.reveal id = (.error (.noSuchNode .showNodes id.raw), g) := by
  unfold reveal
  rw [Filter.reveal_of_missing missing]

/-- Showing a node never makes the filter smaller, if its ancestors exist. -/
theorem size_le_reveal {id : NodeId} {above : List NodeId}
    (ancestors : AncestorsBy g.nesting.parent id above)
    (there : ∀ a ∈ above, g.nesting.has a = true) {n : Node} (found : g.find? id = some n) :
    g.filter.size ≤ (g.reveal id).2.filter.size := by
  rw [reveal_of_ancestors ancestors there found]
  exact Nat.le_trans (g.filter.size_le_setAll _ _) (Filter.size_le_setAll _ _ _)

/-- After a node has been shown, what containment reaches from it and its ancestors are not
filtered; all else is as it was. -/
theorem isFiltered_reveal {id : NodeId} {above : List NodeId}
    (ancestors : AncestorsBy g.nesting.parent id above)
    (there : ∀ a ∈ above, g.nesting.has a = true) {n : Node} (found : g.find? id = some n)
    (x : NodeId) :
    (g.reveal id).2.filter.isFiltered x = true ↔
      g.filter.isFiltered x = true ∧ ¬ g.nodes.Reaches id x ∧ x ∉ above := by
  rw [reveal_of_ancestors ancestors there found]
  have different : FilterState.notFiltered ≠ .filtered := by decide
  rw [Filter.isFiltered_setAll, Filter.isFiltered_setAll, g.nodes.mem_subtree_iff]
  tauto

end Graph

end CodeGraph
