import CodeGraph.Proofs.EventTraces
import CodeGraph.Proofs.SafeWalks
import CodeGraph.Proofs.Visibility

/-!
# Walks through forests

In a forest nothing is reached along two ways: what hangs from one child of a node hangs from no
other, and what hangs from one node without a parent hangs from no other. So a walk that starts at
all nodes without a parent and goes along containment edges only never comes to a node that it has
entered, whatever is hidden, and one that does not look out for such nodes goes the same way as one
that does. Main statement: `Graph.forest_walks_agree_after`. The argument is a simulation: behind
the node that is entered lie only nodes that hang from it, and none of them has been entered so far.
-/

set_option autoImplicit false

namespace CodeGraph

open Relation

variable {σ τ : Type}

namespace Graph

variable {g : Graph}

/-! ## What hangs from whom -/

/-- A node has one parent at most. -/
theorem rightUnique_parent :
    Relator.RightUnique fun x p => ∃ n, g.find? x = some n ∧ n.parentId? = some p := by
  rintro x p q ⟨n, found, parent⟩ ⟨m, found', parent'⟩
  cases found.symm.trans found'
  exact Option.some.inj (parent.symm.trans parent')

namespace IsForest

variable (forest : g.IsForest)
include forest

/-- A forest in which all chains of parents end is a hierarchy. -/
theorem isHierarchy (rooted : g.Rooted) : g.IsHierarchy where
  once id n found := by
    rw [forest id n found]
    exact Option.length_toList_le
  parent id n p found parent := by
    rw [forest id n found, parent]
    exact List.mem_cons_self
  rooted := rooted

/-- A containment edge leads to a child of the node where it starts. -/
theorem parentId?_of_edge (indexed : g.nodes.Indexed) {n t : Node} (found : g.find? n.id = some n)
    {e : Edge} (edge : e ∈ n.edges) (contains : e.kind.isContainment = true)
    (target : g.find? e.target = some t) : t.parentId? = some n.id := by
  have container : n.id ∈ g.containers e.target := by
    refine List.mem_map.2 ⟨e, List.mem_filter.2 ⟨?_, by simp [contains]⟩,
      Node.source_of_mem_edges edge⟩
    exact (mem_allEdges indexed e).2 ⟨n, found, edge⟩
  rw [forest e.target t target] at container
  exact Option.mem_toList.1 container

/-- No two containment edges of a node lead to the same node. -/
theorem edges_apart {n : Node} (listed : n ∈ g.nodeList) :
    n.edges.Pairwise fun e e' => e.kind.isContainment = true → e'.kind.isContainment = true →
      ∀ t, g.find? e.target = some t → e.target ≠ e'.target := by
  rw [List.pairwise_iff_forall_sublist]
  intro e e' both contains contains' t found same
  have within : [e, e'].Sublist g.allEdges := by
    exact both.trans (List.sublist_flatten_of_mem (List.mem_map_of_mem listed))
  have counted := within.filter fun e'' => e''.kind.isContainment && decide (e''.target = e.target)
  have long := counted.length_le
  have few : (g.containers e.target).length ≤ 1 := by
    rw [forest e.target t found]
    exact Option.length_toList_le
  unfold containers at few
  rw [List.length_map] at few
  simp only [List.filter_cons, contains, contains', same, List.filter_nil, decide_true,
    Bool.and_self, if_true, List.length_cons, List.length_nil] at long few
  omega

end IsForest

namespace IsHierarchy

variable (hierarchy : g.IsHierarchy) (indexed : g.nodes.Indexed)
include hierarchy indexed

/-- A node does not hang from its children. -/
theorem not_above_child {x p : NodeId} {n : Node} (found : g.find? x = some n)
    (parent : n.parentId? = some p) : ¬ g.AtOrAbove p x := by
  intro back
  obtain ⟨above, ancestors, -⟩ := hierarchy.exists_ancestors indexed found
  cases ancestors with
  | top last =>
    have next := parent_nesting.2 ⟨n, found, parent⟩
    rw [last] at next
    cases next
  | @up _ q above next rest =>
    have same := parent_nesting.2 ⟨n, found, parent⟩
    rw [next] at same
    cases same
    exact (AncestorsBy.up next rest).not_mem_self ((atOrAbove_iff rest).1 back)

/-- Nothing hangs from two children of one node. -/
theorem siblings_apart {x y z p : NodeId} {n m : Node} (first : g.find? x = some n)
    (parent : n.parentId? = some p) (second : g.find? y = some m) (parent' : m.parentId? = some p)
    (different : x ≠ y) (above : g.AtOrAbove z x) : ¬ g.AtOrAbove z y := by
  intro above'
  have apart : ∀ {a b : NodeId} {k l : Node}, g.find? a = some k → k.parentId? = some p →
      g.find? b = some l → l.parentId? = some p → a ≠ b → ¬ g.AtOrAbove a b := by
    intro a b k l found up found' up' different reach
    rcases ReflTransGen.cases_head reach with same | ⟨q, step, rest⟩
    · exact different same
    · cases rightUnique_parent step ⟨k, found, up⟩
      exact hierarchy.not_above_child indexed found' up' rest
  rcases ReflTransGen.total_of_right_unique rightUnique_parent above above' with reach | reach
  · exact apart first parent second parent' different reach
  · exact apart second parent' first parent different.symm reach

end IsHierarchy

/-- Nothing hangs from two nodes without a parent. -/
theorem tops_apart {x y z : NodeId} {n m : Node} (first : g.find? x = some n)
    (top : n.parentId? = none) (second : g.find? y = some m) (top' : m.parentId? = none)
    (above : g.AtOrAbove z x) (above' : g.AtOrAbove z y) : x = y := by
  have last : ∀ {a b : NodeId} {k : Node}, g.find? a = some k → k.parentId? = none →
      g.AtOrAbove a b → a = b := by
    intro a b k found top reach
    rcases ReflTransGen.cases_head reach with same | ⟨q, ⟨l, found', up⟩, -⟩
    · exact same
    · cases found.symm.trans found'
      cases top.symm.trans up
  rcases ReflTransGen.total_of_right_unique rightUnique_parent above above' with reach | reach
  · exact last first top reach
  · exact (last second top' reach).symm

end Graph

/-! ## With and without care -/

namespace Walk

/-- Two walks have told the same and stand the same. -/
structure Matches (w v : Walk τ) : Prop where
  watcher : w.watcher = v.watcher
  progress : w.progress = v.progress

namespace Matches

variable {w v : Walk τ}

/-- Walks that match are both going or both not. -/
theorem isGoing (same : Matches w v) : w.isGoing = v.isGoing := by
  unfold Walk.isGoing
  rw [same.progress]

/-- Walks that match still match after they are told the same step. -/
theorem tell (same : Matches w v) (watch : Watcher τ) (step : Step) :
    Matches (w.tell watch step) (v.tell watch step) := by
  unfold Walk.tell
  rw [same.isGoing, same.watcher]
  split
  · split
    · exact ⟨rfl, same.progress⟩
    · exact ⟨rfl, rfl⟩
  · exact same

/-- Collecting is not told of. -/
theorem collect (same : Matches w v) (id : NodeId) : Matches (w.collect id) (v.collect id) := by
  have silent : ∀ u : Walk τ, (u.collect id).watcher = u.watcher ∧
      (u.collect id).progress = u.progress := by
    intro u
    unfold Walk.collect
    split <;> exact ⟨rfl, rfl⟩
  refine ⟨?_, ?_⟩
  · rw [(silent w).1, (silent v).1, same.watcher]
  · rw [(silent w).2, (silent v).2, same.progress]

/-- Walks that match still match after both are lost. -/
theorem lose (same : Matches w v) : Matches w.lose v.lose := by
  unfold Walk.lose
  rw [same.isGoing]
  split
  · exact ⟨same.watcher, rfl⟩
  · exact same

end Matches

/-- Telling a step marks no node. -/
theorem visited_tell (watch : Watcher τ) (step : Step) (w : Walk τ) :
    (w.tell watch step).visited = w.visited := by
  unfold tell
  split
  · split <;> rfl
  · rfl

/-- Losing a walk marks no node. -/
theorem visited_lose (w : Walk τ) : w.lose.visited = w.visited := by
  unfold lose
  split <;> rfl

/-- Collecting a node marks none. -/
theorem visited_collect (id : NodeId) (w : Walk τ) : (w.collect id).visited = w.visited := by
  unfold collect
  split <;> rfl

namespace Course

/-- The same course, with care not to enter a node twice or without. -/
def withCare (c : Course τ) (safe : Bool) : Course τ :=
  { c with plan := { c.plan with safe } }

/-- At an edge there is nothing to take care of. -/
theorem cross_withCare (c : Course τ) (safe : Bool) : (c.withCare safe).cross = c.cross :=
  rfl

variable {c : Course τ} (uncrossed : ∀ kind, c.plan.crossEdges.contains kind = false)
include uncrossed

/-- Going through an edge keeps the walks together, if entering the node behind it does. -/
theorem cross_matches {enter enter' : Node → Walk τ → Walk τ} {e : Edge} {w v : Walk τ}
    (same : Matches w v)
    (entering : ∀ t, c.graph.find? e.target = some t → e.kind.isContainment = true →
      ∀ w' v', w'.visited = w.visited → Matches w' v' → Matches (enter t w') (enter' t v') ∧
        ∀ x, (enter t w').visited.contains x = true →
          w.visited.contains x = true ∨ c.graph.AtOrAbove x e.target) :
    Matches (c.cross enter w e) (c.cross enter' v e) ∧
      ∀ x, (c.cross enter w e).visited.contains x = true →
        w.visited.contains x = true ∨ e.kind.isContainment = true ∧
          (∃ t, c.graph.find? e.target = some t) ∧ c.graph.AtOrAbove x e.target := by
  rcases c.passes_or_meets w e with passes | ⟨t, meets⟩
  · have passes' : c.Passes v e := by
      unfold Passes at passes ⊢
      rw [← same.isGoing]
      exact passes
    rw [c.cross_of_passes passes, c.cross_of_passes passes']
    exact ⟨same, fun x visited => Or.inl visited⟩
  · have meets' : c.Meets v e t := ⟨same.isGoing ▸ meets.going, meets.shown, meets.found⟩
    rw [c.cross_of_meets meets, c.cross_of_meets meets']
    dsimp only
    -- neither collecting nor telling changes what has been entered
    have collected : Matches (if c.plan.collects c.rooted e.kind t then w.collect e.target else w)
        (if c.plan.collects c.rooted e.kind t then v.collect e.target else v) := by
      split
      · exact same.collect e.target
      · exact same
    have kept : ((if c.plan.collects c.rooted e.kind t then w.collect e.target else w).tell c.watch
        (.edge e)).visited = w.visited := by
      rw [visited_tell]
      split
      · exact visited_collect _ w
      · rfl
    have told := collected.tell c.watch (.edge e)
    split
    · next follows =>
      have contains : e.kind.isContainment = true := by
        rcases allowed_of_follows follows with contains | crosses
        · exact contains
        · rw [uncrossed] at crosses
          cases crosses
      obtain ⟨entered, below⟩ := entering t meets.found contains _ _ kept told
      refine ⟨entered.tell _ _, fun x visited => ?_⟩
      rw [visited_tell] at visited
      exact (below x visited).imp_right fun under => ⟨contains, ⟨t, meets.found⟩, under⟩
    · refine ⟨told.tell _ _, fun x visited => Or.inl ?_⟩
      rw [visited_tell, kept] at visited
      exact visited

variable (indexed : c.graph.nodes.Indexed) (forest : c.graph.IsForest) (rooted : c.graph.Rooted)
include indexed forest rooted

/-- Going through edges of a node keeps the walks together, if nothing behind them has been entered.
-/
theorem foldl_cross_matches {n : Node} (there : c.graph.find? n.id = some n)
    {enter enter' : Node → Walk τ → Walk τ}
    (entering : ∀ t w v, c.graph.find? t.id = some t → Matches w v →
      (∀ x, w.visited.contains x = true → ¬ c.graph.AtOrAbove x t.id) →
      Matches (enter t w) (enter' t v) ∧ ∀ x, (enter t w).visited.contains x = true →
        w.visited.contains x = true ∨ c.graph.AtOrAbove x t.id)
    {edges : List Edge} (own : edges ⊆ n.edges)
    (apart : edges.Pairwise fun e e' => e.kind.isContainment = true →
      e'.kind.isContainment = true → ∀ t, c.graph.find? e.target = some t → e.target ≠ e'.target)
    {w v : Walk τ} (same : Matches w v)
    (new : ∀ x, w.visited.contains x = true → ∀ e ∈ edges, e.kind.isContainment = true →
      ∀ t, c.graph.find? e.target = some t → ¬ c.graph.AtOrAbove x e.target) :
    Matches (edges.foldl (c.cross enter) w) (edges.foldl (c.cross enter') v) ∧
      ∀ x, (edges.foldl (c.cross enter) w).visited.contains x = true →
        w.visited.contains x = true ∨ c.graph.AtOrAbove x n.id := by
  induction edges generalizing w v with
  | nil => exact ⟨same, fun x visited => Or.inl visited⟩
  | cons e edges ih =>
    obtain ⟨edge, others⟩ := List.cons_subset.1 own
    obtain ⟨different, apart⟩ := List.pairwise_cons.1 apart
    have child : ∀ {e : Edge} {t : Node}, e ∈ n.edges → e.kind.isContainment = true →
        c.graph.find? e.target = some t → t.parentId? = some n.id := fun edge contains found =>
      forest.parentId?_of_edge indexed there edge contains found
    obtain ⟨crossed, below⟩ := cross_matches uncrossed same
        fun t found contains w' v' kept same' => by
      have at_target : t.id = e.target := indexed.id_eq found
      have fresh : ∀ x, w'.visited.contains x = true → ¬ c.graph.AtOrAbove x t.id := by
        intro x visited
        rw [kept] at visited
        rw [at_target]
        exact new x visited e List.mem_cons_self contains t found
      obtain ⟨entered, under⟩ := entering t w' v' (at_target.symm ▸ found) same' fresh
      rw [kept, at_target] at under
      exact ⟨entered, under⟩
    -- what was entered behind this edge hangs from a sibling of what is behind the later ones
    have later : ∀ x, (c.cross enter w e).visited.contains x = true → ∀ e' ∈ edges,
        e'.kind.isContainment = true → ∀ t, c.graph.find? e'.target = some t →
        ¬ c.graph.AtOrAbove x e'.target := by
      intro x visited e' mem contains' t' found'
      rcases below x visited with before | ⟨contains, ⟨t, found⟩, under⟩
      · exact new x before e' (List.mem_cons_of_mem e mem) contains' t' found'
      · exact (forest.isHierarchy rooted).siblings_apart indexed found (child edge contains found)
          found' (child (others mem) contains' found')
          (different e' mem contains contains' t found) under
    obtain ⟨all, further⟩ := ih others apart crossed later
    refine ⟨all, fun x visited => ?_⟩
    rcases further x visited with mid | hangs
    · rcases below x mid with before | ⟨contains, ⟨t, found⟩, under⟩
      · exact Or.inl before
      · exact Or.inr (under.tail ⟨t, found, child edge contains found⟩)
    · exact Or.inr hangs

/-- Entering a node keeps the walks together, if nothing that hangs from it has been entered. -/
theorem enter_matches (depth : Nat) {n : Node} (there : c.graph.find? n.id = some n) {w v : Walk τ}
    (same : Matches w v)
    (new : ∀ x, w.visited.contains x = true → ¬ c.graph.AtOrAbove x n.id) :
    Matches ((c.withCare true).enter depth n w) ((c.withCare false).enter depth n v) ∧
      ∀ x, ((c.withCare true).enter depth n w).visited.contains x = true →
        w.visited.contains x = true ∨ c.graph.AtOrAbove x n.id := by
  induction depth generalizing n w v with
  | zero =>
    refine ⟨same.lose, fun x visited => Or.inl ?_⟩
    unfold enter at visited
    rw [visited_lose] at visited
    exact visited
  | succ depth ih =>
    cases going : w.isGoing with
    | false =>
      rw [enter_of_ended _ going, enter_of_ended _ (same.isGoing ▸ going)]
      exact ⟨same, fun x visited => Or.inl visited⟩
    | true =>
      have unvisited : w.visited.contains n.id = false :=
        Bool.eq_false_iff.2 fun visited => new n.id visited .refl
      have careful : ((c.withCare true).plan.safe && w.visited.contains n.id) = false := by
        rw [unvisited, Bool.and_false]
      have remembers : (c.withCare true).plan.remembers = true := rfl
      rw [enter_of_going _ going careful, enter_of_going _ (same.isGoing ▸ going) rfl, remembers]
      simp only [cross_withCare, if_true]
      have marked : Matches (w.mark n.id)
          (if (c.withCare false).plan.remembers then v.mark n.id else v) := by
        split <;> exact ⟨same.watcher, same.progress⟩
      have told := marked.tell c.watch (.enter n)
      have known : ∀ x, ((w.mark n.id).tell c.watch (.enter n)).visited.contains x = true →
          x = n.id ∨ w.visited.contains x = true := by
        intro x visited
        rw [visited_tell] at visited
        unfold mark at visited
        rw [IdSet.contains_insert, Bool.or_eq_true, beq_iff_eq] at visited
        exact visited
      have behind : ∀ x, ((w.mark n.id).tell c.watch (.enter n)).visited.contains x = true →
          ∀ e ∈ n.edges, e.kind.isContainment = true → ∀ t, c.graph.find? e.target = some t →
          ¬ c.graph.AtOrAbove x e.target := by
        intro x visited e edge contains t found above
        have parent := forest.parentId?_of_edge indexed there edge contains found
        rcases known x visited with rfl | before
        · exact (forest.isHierarchy rooted).not_above_child indexed found parent above
        · exact new x before (above.tail ⟨t, found, parent⟩)
      obtain ⟨crossed, below⟩ := foldl_cross_matches uncrossed indexed forest rooted there
        (fun t w v found same new => ih found same new) (List.Subset.refl _)
        (forest.edges_apart ((indexed.mem_toList_iff n).2 there)) told behind
      refine ⟨crossed.tell _ _, fun x visited => ?_⟩
      rw [visited_tell] at visited
      rcases below x visited with before | hangs
      · rcases known x before with rfl | before
        · exact Or.inr .refl
        · exact Or.inl before
      · exact Or.inr hangs

/-- Entering nodes without a parent one after the other keeps the walks together. -/
theorem enterAll_matches (limit : Nat) {nodes : List Node}
    (tops : ∀ n ∈ nodes, c.graph.find? n.id = some n ∧ n.parentId? = none)
    (once : (nodes.map Node.id).Nodup) {w v : Walk τ} (same : Matches w v)
    (new : ∀ x, w.visited.contains x = true → ∀ n ∈ nodes, ¬ c.graph.AtOrAbove x n.id) :
    Matches ((c.withCare true).enterAll limit nodes w)
      ((c.withCare false).enterAll limit nodes v) := by
  induction nodes generalizing w v with
  | nil => exact same
  | cons n nodes ih =>
    obtain ⟨⟨there, top⟩, others⟩ := List.forall_mem_cons.1 tops
    obtain ⟨absent, once⟩ := List.nodup_cons.1 once
    obtain ⟨entered, below⟩ := enter_matches uncrossed indexed forest rooted limit there same
      fun x visited => new x visited n List.mem_cons_self
    refine ih others once entered fun x visited m mem above => ?_
    rcases below x visited with before | hangs
    · exact new x before m (List.mem_cons_of_mem n mem) above
    · obtain ⟨found, top'⟩ := others m mem
      have same := Graph.tops_apart there top found top' hangs above
      exact absent (List.mem_map.2 ⟨m, mem, same.symm⟩)

end Course

end Walk

namespace Graph

/-- Through a forest a walk without a root goes the same way with care and without. -/
theorem walkFrom_matches {g : Graph} (indexed : g.nodes.Indexed) (forest : g.IsForest)
    (rooted : g.Rooted) {plan : WalkPlan}
    (uncrossed : ∀ kind, plan.crossEdges.contains kind = false) (watch : Watcher τ) (start : τ)
    (patience : Nat) :
    Walk.Matches (g.walkFrom { plan with safe := true } watch start none patience)
      (g.walkFrom { plan with safe := false } watch start none patience) := by
  let c : Walk.Course τ := ⟨g, plan, false, watch⟩
  have tops : ∀ n ∈ c.starts, g.find? n.id = some n ∧ n.parentId? = none := by
    intro n mem
    obtain ⟨listed, free⟩ := List.mem_filter.1 mem
    rw [Bool.and_eq_true, Option.isNone_iff_eq_none] at free
    exact ⟨(indexed.mem_toList_iff n).1 listed, congrArg (Option.map Parent.id) free.1⟩
  have once : (c.starts.map Node.id).Nodup :=
    indexed.nodup_ids.sublist (List.filter_sublist.map Node.id)
  refine Walk.Course.enterAll_matches (c := c) uncrossed indexed forest rooted _ tops once
    ⟨rfl, rfl⟩ fun x visited => ?_
  rw [IdSet.contains_withRoom] at visited
  cases visited

/-- A node whose chain of parents ends has to be covered, if nothing is hidden. -/
theorem IsForest.mem_of_reachesRoot {g : Graph} (forest : g.IsForest) (indexed : g.nodes.Indexed)
    {plan : WalkPlan} (shown : ∀ id n, g.find? id = some n → ¬ plan.Filtered g id)
    {S : Set NodeId} (covered : g.Covered plan none S) {steps : Nat} {id : NodeId}
    (reaches : g.reachesRoot steps id = true) : id ∈ S := by
  induction steps generalizing id with
  | zero => cases reaches
  | succ steps ih =>
    unfold reachesRoot at reaches
    split at reaches
    · cases reaches
    · next n found =>
      split at reaches
      · next top => exact covered.starts rfl id n found top (shown id n found)
      · next p parent =>
        have inside : p.id ∈ g.containers id := by
          rw [forest id n found, Node.parentId?, parent]
          exact List.mem_cons_self
        obtain ⟨e, chosen, starts⟩ := List.mem_map.1 inside
        obtain ⟨among, leads⟩ := List.mem_filter.1 chosen
        rw [Bool.and_eq_true, decide_eq_true_eq] at leads
        obtain ⟨contains, rfl⟩ := leads
        obtain ⟨m, there, edge⟩ := (mem_allEdges indexed e).1 among
        have own : m.id = p.id := (Node.source_of_mem_edges edge).symm.trans starts
        exact covered.closed m.id m (own.symm ▸ ih reaches) there e edge n found
          (shown e.target n found) (Or.inl contains)

/-- In a forest that is not hidden anywhere, a safe walk without a root visits every node once. -/
theorem IsForest.count_visits {g : Graph} (forest : g.IsForest) (rooted : g.Rooted)
    (indexed : g.nodes.Indexed) {plan : WalkPlan} (safe : plan.safe = true)
    (shown : ∀ id n, g.find? id = some n → ¬ plan.Filtered g id) (patience : Nat) {id : NodeId}
    {n : Node} (found : g.find? id = some n) :
    (Event.visits (Step.allEvents (g.steps plan none patience).watcher)).count id = 1 := by
  have unrooted : ∀ m : Node, none = some m → g.find? m.id = some m := by
    intro m absent
    cases absent
  have exactly := listsExactly_walkFrom indexed safe unrooted patience
  obtain ⟨steps, reaches⟩ := rooted id n found
  have seen := forest.mem_of_reachesRoot indexed shown exactly.least.1 reaches
  have visits : Event.visits (Step.allEvents (g.steps plan none patience).watcher) =
      (g.walkFrom plan Watcher.lister [] none patience).watcher.map Node.id := by
    rw [Event.visits_allEvents, (g.alike_lister plan none patience).watcher]
  rw [visits]
  exact List.count_eq_one_of_mem exactly.once seen

/-- Through a forest whose chains of parents end, and along no edges but containment edges, a walk
without a root ends by itself with care and without, whatever is hidden, and every visitor hears the
same both times and ends in the same state. If nothing is hidden, a visitor that never has enough
hears of one visit to each node. -/
theorem forest_walks_agree_after (language : Language) (history : List Operation)
    (forest : ((new language).after history).IsForest)
    (rooted : ((new language).after history).Rooted) (plan : WalkPlan)
    (uncrossed : ∀ kind, plan.crossEdges.contains kind = false) (v : Visitor σ) (states : List σ) :
    let g := (new language).after history
    ∃ careful careless,
      g.EndsIn { plan with safe := true } v states none careful ∧
      g.EndsIn { plan with safe := false } v states none careless ∧
      careless.watcher = careful.watcher ∧ careless.progress = careful.progress ∧
      ((∀ id n, g.find? id = some n → ¬ plan.Filtered g id) →
        ∀ member ∈ careless.watcher, member.2 = true →
          ∀ id n, g.find? id = some n → (Event.visits member.1.2).count id = 1) := by
  intro g
  have indexed : g.nodes.Indexed := indexed_after language history
  have unrooted : ∀ n : Node, none = some n → g.find? n.id = some n := by
    intro n absent
    cases absent
  have same : Walk.Matches (g.steps { plan with safe := true } none 0)
      (g.steps { plan with safe := false } none 0) :=
    walkFrom_matches indexed forest rooted uncrossed Watcher.recorder [] 0
  have ends : (g.steps { plan with safe := true } none 0).progress ≠ .lost := by
    rw [(steps_of_safe indexed rfl unrooted 0).1]
    decide
  have ends' : (g.steps { plan with safe := false } none 0).progress ≠ .lost :=
    same.progress ▸ ends
  have starts : ∀ (other : WalkPlan) {υ : Type} (watch : Watcher υ) (start : υ) (patience : Nat),
      g.walk other watch start none patience = .ok (g.walkFrom other watch start none patience) :=
    fun _ _ _ _ _ => rfl
  obtain ⟨careful, -⟩ := endsIn_of_found (starts _) ends v states
  obtain ⟨careless, told⟩ := endsIn_of_found (starts _) ends' v states
  have agree : Walk.Matches _ _ := walkFrom_matches indexed forest rooted uncrossed
    (Crew.watch v.recording.watch) (Crew.ofList (states.map fun s => (s, []))) 0
  refine ⟨_, _, careful, careless, agree.watcher.symm, agree.progress.symm, ?_⟩
  intro shown member mem watching id n found
  rw [told] at mem
  obtain ⟨s, -, rfl⟩ := List.mem_map.1 mem
  have all : given v.hear s _ = _ := given_of_watching watching
  have safe : ({ plan with safe := true } : WalkPlan).safe = true := rfl
  dsimp only
  rw [all, ← same.watcher]
  exact forest.count_visits rooted indexed safe shown 0 found

/-- Packages below packages, one of them hidden. -/
def hidingHistory : List Operation :=
  packagesHistory ++ [.resetFilter, .turnFilterOn, .hide (madeId 2)]

/-- A walk without care leaves out what is hidden just as one with care does, and one that looks at
hidden nodes comes to the hidden package once. -/
theorem forest_walks_agree_after_hiding :
    let g := (new .java).after hidingHistory
    let seeing : WalkPlan := { seesFiltered := true }
    g.IsForest ∧ g.Rooted ∧
      (∃ careful careless, g.EndsIn { safe := true } .countdown [100, 3] none careful ∧
        g.EndsIn { safe := false } .countdown [100, 3] none careless ∧
        careless.watcher = careful.watcher ∧
        (careless.watcher.map fun member => (Event.visits member.1.2).count (madeId 2)) = [0, 0]) ∧
      ∃ careless, g.EndsIn seeing .countdown [100, 3] none careless ∧
        ∀ member ∈ careless.watcher, member.2 = true →
          (Event.visits member.1.2).count (madeId 2) = 1 := by
  intro g seeing
  have facts : (g.find? (madeId 2)).isSome = true ∧
      (g.walkWith { safe := false } Visitor.countdown.recording.watch [(100, []), (3, [])] none
        0).toOption.map (fun run => run.watcher.map fun member =>
          (Event.visits member.1.2).count (madeId 2)) = some [0, 0] ∧
      ∀ n ∈ g.nodeList, g.reachesRoot 3 n.id = true ∧ g.containers n.id = n.parentId?.toList := by
    decide +kernel
  obtain ⟨there, heard, nodes⟩ := facts
  have indexed : g.nodes.Indexed := indexed_after .java hidingHistory
  have rooted : g.Rooted := rooted_of_nodeList indexed fun n mem => (nodes n mem).1
  have forest : g.IsForest := by
    intro id n found
    have own : n.id = id := indexed.id_eq found
    subst own
    exact (nodes n ((indexed.mem_toList_iff n).2 found)).2
  have uncrossed : ∀ kind, EdgeSet.empty.contains kind = false := fun _ => rfl
  refine ⟨forest, rooted, ?_, ?_⟩
  · obtain ⟨careful, careless, ends, ends', same, -, -⟩ := forest_walks_agree_after .java
      hidingHistory forest rooted {} uncrossed .countdown [100, 3]
    refine ⟨careful, careless, ends, ends', same, ?_⟩
    have recorded := ends'.recorded 0
    dsimp only [List.map] at recorded
    rw [recorded] at heard
    exact Option.some.inj heard
  · obtain ⟨-, careless, -, ends', -, -, once⟩ := forest_walks_agree_after .java hidingHistory
      forest rooted seeing uncrossed .countdown [100, 3]
    obtain ⟨n, found⟩ := Option.isSome_iff_exists.1 there
    have unhidden : ∀ id m, g.find? id = some m → ¬ seeing.Filtered g id :=
      fun _ _ _ hidden => Bool.noConfusion hidden.1
    exact ⟨careless, ends', fun member mem watching => once unhidden member mem watching _ n found⟩

end Graph

end CodeGraph
