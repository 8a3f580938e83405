import CodeGraph.Proofs.FilterStates
import CodeGraph.Proofs.RoundTrip

/-!
# Visible nodes hang from visible nodes

Hiding a node reaches down, showing one reaches down and up, and the two overlap in any order. Where
no node is contained twice, whatever hangs from a hidden node stays hidden nevertheless: a node that
is shown because containment reaches it is the node that was asked for, whose ancestors are shown as
well, or it hangs from another one that is shown. Main statement: `Graph.visible_ancestors_after`.
Only a node that is contained but has lost its parent can be shown without its container.
-/

set_option autoImplicit false

namespace CodeGraph

/-- Whether an operation hides or shows a node with all that belongs to it. -/
def Operation.setsSubtree : Operation → Bool
  | .hide _ => true
  | .reveal _ => true
  | _ => false

namespace Graph

variable {g : Graph}

/-- No node is contained twice, the parent of a node is its container, and all chains of parents
end. A node that is contained may be without a parent. -/
structure IsHierarchy (g : Graph) : Prop where
  once : ∀ id n, g.find? id = some n → (g.containers id).length ≤ 1
  parent : ∀ id n p, g.find? id = some n → n.parentId? = some p → p ∈ g.containers id
  rooted : g.Rooted

/-- Whatever hangs from a filtered node is filtered. -/
def Shaded (g : Graph) (f : Filter) : Prop :=
  ∀ x n p, g.find? x = some n → n.parentId? = some p → f.isFiltered p = true →
    f.isFiltered x = true

/-- A node below a filtered one is filtered, however far below. -/
theorem Shaded.of_above {f : Filter} (shaded : g.Shaded f) {id a : NodeId}
    (above : g.AtOrAbove id a) (filtered : f.isFiltered a = true) : f.isFiltered id = true := by
  induction above using Relation.ReflTransGen.head_induction_on with
  | refl => exact filtered
  | head step _ ih =>
    obtain ⟨n, found, parent⟩ := step
    exact shaded _ n _ found parent ih

/-- Containers are seen from above and from below. -/
theorem mem_containers_iff (indexed : g.nodes.Indexed) {p x : NodeId} :
    p ∈ g.containers x ↔ x ∈ g.nodes.children p := by
  have below : x ∈ g.nodes.children p ↔ ∃ n, g.find? p = some n ∧ x ∈ n.children := by
    unfold NodeTable.children find?
    cases g.nodes.find? p <;> simp
  rw [below]
  unfold containers Node.children
  simp only [List.mem_map, List.mem_filter, Bool.and_eq_true, decide_eq_true_eq,
    mem_allEdges indexed]
  constructor
  · rintro ⟨e, ⟨⟨n, found, edge⟩, contains, rfl⟩, rfl⟩
    have own : e.source = n.id := Node.source_of_mem_edges edge
    exact ⟨n, own ▸ found, e, ⟨edge, contains⟩, rfl⟩
  · rintro ⟨n, found, e, ⟨edge, contains⟩, rfl⟩
    have own : n.id = p := indexed.id_eq found
    exact ⟨e, ⟨⟨n, own.symm ▸ found, edge⟩, contains, rfl⟩,
      (Node.source_of_mem_edges edge).trans own⟩

namespace IsHierarchy

variable (hierarchy : g.IsHierarchy)
include hierarchy

/-- A node has no two containers. -/
theorem container_eq {x p q : NodeId} {n : Node} (found : g.find? x = some n)
    (first : p ∈ g.containers x) (second : q ∈ g.containers x) : p = q := by
  have few := hierarchy.once x n found
  obtain ⟨only, is⟩ := List.length_eq_one_iff.1
    (Nat.le_antisymm few (List.length_pos_of_mem first))
  rw [is] at first second
  exact (List.mem_singleton.1 first).trans (List.mem_singleton.1 second).symm

/-- Every node has a chain of ancestors that exist. -/
theorem exists_ancestors (indexed : g.nodes.Indexed) {id : NodeId} {n : Node}
    (found : g.find? id = some n) :
    ∃ above, AncestorsBy g.nesting.parent id above ∧ ∀ a ∈ above, g.nesting.has a = true := by
  obtain ⟨steps, reaches⟩ := hierarchy.rooted id n found
  obtain ⟨above, ancestors⟩ := ancestors_of_reachesRoot reaches
  refine ⟨above, ancestors, ?_⟩
  clear reaches found
  induction ancestors with
  | top _ => exact fun a mem => absurd mem List.not_mem_nil
  | @up x p above next _ ih =>
    refine List.forall_mem_cons.2 ⟨?_, ih⟩
    obtain ⟨m, there, parent⟩ := parent_nesting.1 (congrArg (Option.map Parent.id) next)
    have child := (mem_containers_iff indexed).1 (hierarchy.parent x m p.id there parent)
    unfold NodeTable.children at child
    split at child
    · next holder exists_ => exact Option.isSome_iff_exists.2 ⟨holder, exists_⟩
    · cases child

/-- Hiding a node hides what hangs from it. -/
theorem shaded_hide (indexed : g.nodes.Indexed) {f : Filter} (shaded : g.Shaded f) {id : NodeId}
    {h : Graph} (hidden : { g with filter := f }.withHidden id = .ok h) : g.Shaded h.filter := by
  intro x n p found parent filtered
  rw [isFiltered_withHidden hidden] at filtered ⊢
  rcases filtered with below | before
  · have child := (mem_containers_iff indexed).1 (hierarchy.parent x n p found parent)
    exact Or.inl (below.tail child)
  · exact Or.inr (shaded x n p found parent before)

/-- Showing a node shows nothing that hangs from a node that stays hidden. -/
theorem shaded_reveal (indexed : g.nodes.Indexed) {f : Filter} (shaded : g.Shaded f) {id : NodeId}
    {m : Node} (there : g.find? id = some m) :
    g.Shaded ({ g with filter := f }.reveal id).2.filter := by
  obtain ⟨above, ancestors, exist⟩ := hierarchy.exists_ancestors indexed there
  have shown := isFiltered_reveal (g := { g with filter := f }) ancestors exist there
  intro x n p found parent filtered
  rw [shown] at filtered ⊢
  obtain ⟨before, notBelow, notAbove⟩ := filtered
  have up : g.AtOrAbove x p := Relation.ReflTransGen.single ⟨n, found, parent⟩
  -- the parent of an id that is shown for its place above the node lies above the node itself
  have above_of : g.AtOrAbove id p → p ∈ id :: above := (atOrAbove_iff ancestors).1
  have apart : p ∉ id :: above := by
    intro mem
    rcases List.mem_cons.1 mem with rfl | higher
    · exact notBelow .refl
    · exact notAbove higher
  refine ⟨shaded x n p found parent before, fun below => ?_, fun higher => ?_⟩
  · rcases Relation.ReflTransGen.cases_tail below with rfl | ⟨y, path, child⟩
    · exact apart (above_of up)
    · have same : y = p := hierarchy.container_eq found ((mem_containers_iff indexed).2 child)
        (hierarchy.parent x n p found parent)
      exact notBelow (same ▸ path)
  · exact apart (above_of (((atOrAbove_iff ancestors).2 (List.mem_cons_of_mem id higher)).trans up))

/-- Hiding and showing in any order, failures included, leave whatever hangs from a filtered node
filtered. -/
theorem shaded_after (indexed : g.nodes.Indexed) {calls : List Operation}
    (subtrees : ∀ call ∈ calls, call.setsSubtree = true) :
    let h := g.resetFilter.after calls
    g.Shaded h.filter ∧ g.size ≤ h.filter.size := by
  let Inv : Graph → Prop := fun h =>
    ∃ f, h = { g with filter := f } ∧ g.Shaded f ∧ g.size ≤ f.size
  have start : Inv g.resetFilter := by
    refine ⟨g.resetFilter.filter, rfl, fun x n p _ _ filtered => ?_, ?_⟩
    · rw [isFiltered_resetFilter] at filtered
      cases filtered
    · rw [size_resetFilter]
  have step : ∀ (h : Graph) (call : Operation), call.setsSubtree = true → Inv h →
      Inv (call.perform h).2 := by
    rintro h call sets ⟨f, rfl, shaded, covered⟩
    rw [Operation.perform_eq]
    cases call with
    | hide id =>
      refine orKeep_preserves (P := Inv) ⟨f, rfl, shaded, covered⟩ fun h hidden => ?_
      have shaded := hierarchy.shaded_hide indexed shaded hidden
      obtain ⟨filter, rfl⟩ := refilters_withHidden hidden
      exact ⟨filter, rfl, shaded, Nat.le_trans covered (size_le_withHidden hidden)⟩
    | reveal id =>
      cases there : g.find? id with
      | none =>
        refine ⟨f, ?_, shaded, covered⟩
        exact congrArg Prod.snd (reveal_of_missing (g := { g with filter := f }) there)
      | some m =>
        obtain ⟨above, ancestors, exist⟩ := hierarchy.exists_ancestors indexed there
        have grown := size_le_reveal (g := { g with filter := f }) ancestors exist there
        exact ⟨_, rfl, hierarchy.shaded_reveal indexed shaded there, Nat.le_trans covered grown⟩
    | _ => cases sets
  obtain ⟨f, is, shaded, covered⟩ :=
    (along_of_forall (fun call mem _ => subtrees call mem) g.resetFilter).preserves step start
  rw [is]
  exact ⟨shaded, covered⟩

end IsHierarchy

/-- Where no node is contained twice, and whatever is hidden and shown, failures included, a node
that is not filtered has only ancestors that are not filtered. So the far end of a containment edge
of a filtered node is filtered, unless it has lost its parent, which does not happen in a forest. -/
theorem visible_ancestors_after (language : Language) (history calls : List Operation)
    (hierarchy : ((new language).after history).IsHierarchy)
    (subtrees : ∀ call ∈ calls, call.setsSubtree = true) :
    let g := (new language).after history
    let f := (g.resetFilter.after calls).filter
    (∀ id n, g.find? id = some n → f.state? id = some .notFiltered →
      ∀ a, g.AtOrAbove id a → f.state? a = some .notFiltered) ∧
    (∀ e ∈ g.allEdges, e.kind.isContainment = true → ∀ n, g.find? e.target = some n →
      f.state? e.source = some .filtered →
        f.state? e.target = some .filtered ∨ n.parentId? = none) ∧
    (g.IsForest → ∀ e ∈ g.allEdges, e.kind.isContainment = true → ∀ n, g.find? e.target = some n →
      f.state? e.source = some .filtered → f.state? e.target = some .filtered) := by
  intro g f
  have indexed : g.nodes.Indexed := indexed_after language history
  obtain ⟨shaded, covers⟩ : g.Shaded f ∧ g.size ≤ f.size := hierarchy.shaded_after indexed subtrees
  have state : ∀ id n, g.find? id = some n →
      f.state? id = some (if f.isFiltered id then .filtered else .notFiltered) := fun id n found =>
    f.state?_of_index_lt (Nat.lt_of_lt_of_le (NodeTable.index_lt_size found) covers)
  have edges : ∀ e ∈ g.allEdges, e.kind.isContainment = true → e.source ∈ g.containers e.target := by
    intro e mem contains
    unfold containers
    exact List.mem_map.2 ⟨e, List.mem_filter.2 ⟨mem, by simp [contains]⟩, rfl⟩
  have closed : ∀ e ∈ g.allEdges, e.kind.isContainment = true → ∀ n, g.find? e.target = some n →
      f.state? e.source = some .filtered →
        f.state? e.target = some .filtered ∨ n.parentId? = none := by
    intro e mem contains n found filtered
    cases parent : n.parentId? with
    | none => exact Or.inr rfl
    | some p =>
      have same : e.source = p := hierarchy.container_eq found (edges e mem contains)
        (hierarchy.parent e.target n p found parent)
      have hidden := shaded e.target n p found parent (same ▸ decide_eq_true filtered)
      exact Or.inl (of_decide_eq_true hidden)
  refine ⟨fun id n found visible a above => ?_, closed, ?_⟩
  · obtain ⟨chain, ancestors, exist⟩ := hierarchy.exists_ancestors indexed found
    have there : g.nesting.has a = true := by
      rcases List.mem_cons.1 ((atOrAbove_iff ancestors).1 above) with rfl | higher
      · exact Option.isSome_iff_exists.2 ⟨n, found⟩
      · exact exist a higher
    obtain ⟨m, there⟩ := Option.isSome_iff_exists.1 there
    have shown : ¬ f.isFiltered a = true := by
      intro filtered
      have hidden := shaded.of_above above filtered
      rw [Filter.isFiltered, visible] at hidden
      cases hidden
    rw [state a m there, if_neg shown]
  · intro forest e mem contains n found filtered
    refine (closed e mem contains n found filtered).resolve_right fun orphan => ?_
    have inside := edges e mem contains
    rw [forest e.target n found, orphan] at inside
    cases inside

/-- A history that puts a package below the root and two others below that one. -/
def packagesHistory : List Operation :=
  [.createNode .package, .createNode .package, .createNode .package,
    .addEdge .scopeHasMember rootId (madeId 0), .addEdge .scopeHasMember (madeId 0) (madeId 1),
    .addEdge .scopeHasMember (madeId 0) (madeId 2)]

/-- Calls that hide the root, show a package far below it, ask for a node that does not exist, and
hide and show packages above and below what was shown. -/
def overlappingCalls : List Operation :=
  [.hide rootId, .reveal (madeId 1), .hide (madeId 9), .reveal (madeId 9), .hide (madeId 0),
    .reveal (madeId 1)]

/-- The package that was shown last is seen with all that it hangs from, while its neighbour stays
hidden. -/
theorem visible_ancestors_after_overlapping :
    let g := (new .java).after packagesHistory
    let f := (g.resetFilter.after overlappingCalls).filter
    g.IsHierarchy ∧ f.state? (madeId 2) = some .filtered ∧ f.state? (madeId 1) = some .notFiltered ∧
      (∀ a, g.AtOrAbove (madeId 1) a → f.state? a = some .notFiltered) ∧
      g.AtOrAbove (madeId 1) rootId := by
  intro g f
  have facts : f.state? (madeId 2) = some .filtered ∧ f.state? (madeId 1) = some .notFiltered ∧
      (g.find? (madeId 1)).map Node.parentId? = some (some (madeId 0)) ∧
      (g.find? (madeId 0)).map Node.parentId? = some (some rootId) ∧
      ∀ n ∈ g.nodeList, g.reachesRoot 3 n.id = true ∧ g.containers n.id = n.parentId?.toList := by
    decide +kernel
  obtain ⟨hidden, shown, first, second, nodes⟩ := facts
  have indexed : g.nodes.Indexed := indexed_after .java packagesHistory
  have listed : ∀ id n, g.find? id = some n → g.containers id = n.parentId?.toList := by
    intro id n found
    have own : n.id = id := indexed.id_eq found
    subst own
    exact (nodes n ((indexed.mem_toList_iff n).2 found)).2
  have hierarchy : g.IsHierarchy := by
    refine ⟨fun id n found => ?_, fun id n p found parent => ?_,
      rooted_of_nodeList indexed fun n mem => (nodes n mem).1⟩
    · rw [listed id n found]
      exact Option.length_toList_le
    · rw [listed id n found, parent]
      exact List.mem_cons_self
  obtain ⟨n, found, up⟩ := Option.map_eq_some_iff.1 first
  obtain ⟨m, there, top⟩ := Option.map_eq_some_iff.1 second
  have visible := (visible_ancestors_after .java packagesHistory overlappingCalls hierarchy
    (by decide)).1 (madeId 1) n found shown
  exact ⟨hierarchy, hidden, shown, visible, .tail (.single ⟨n, found, up⟩) ⟨m, there, top⟩⟩

-- a package that the root still lists, but that has lost its parent, is shown without the root
example :
    let f := (((new .java).after orphaningHistory).resetFilter.after
      [.hide rootId, .reveal (madeId 0)]).filter
    f.state? rootId = some .filtered ∧ f.state? (madeId 0) = some .notFiltered := by
  decide +kernel

end Graph

end CodeGraph
