import CodeGraph.Proofs.IdSets
import CodeGraph.Proofs.WalkSimulation
import CodeGraph.Proofs.NodeTable
import Mathlib.Data.List.Perm.Subperm
import Mathlib.Order.Bounds.Defs

/-!
# What a safe walk covers

A safe walk enters no node twice, so it does not get lost, and it goes on until nothing is left to
enter. Its visited nodes only grow; a node that the walk has dealt with is settled: the targets of
its edges that are followed have been entered, and those that are collected have been entered or
wait for it. In the end nothing waits, so what was entered is closed under the edges of the plan,
and it is no more than it has to be. The argument is made for a machine that only lists the nodes
entered; every other machine that does not stop sees the same walk.
-/

set_option autoImplicit false

namespace CodeGraph

namespace Walk

/-- An id under which a node has been entered. -/
def Seen (w : Walk (List Node)) (id : NodeId) : Prop :=
  id ∈ w.watcher.map Node.id

namespace Course

/-- A safe course through a graph whose nodes lie at their ids, watched by a lister. -/
structure Careful (c : Course (List Node)) : Prop where
  watch : c.watch = Watcher.lister
  safe : c.plan.safe = true
  indexed : c.graph.nodes.Indexed

/-- How a walk stands between two steps. -/
structure Tidy (c : Course (List Node)) (w : Walk (List Node)) : Prop where
  going : w.progress = .going
  /-- Nodes of the graph were entered. -/
  found : ∀ n ∈ w.watcher, c.graph.find? n.id = some n
  /-- None was entered twice. -/
  once : (w.watcher.map Node.id).Nodup
  /-- The walk remembers all that were entered. -/
  visited : ∀ id, w.visited.contains id = true ↔ w.Seen id
  /-- Nodes wait only if they exist and are not hidden. -/
  pending : ∀ id, w.pending.contains id = true →
    c.plan.hides c.graph id = false ∧ ∃ n, c.graph.find? id = some n
  clean : w.pending.Clean

/-- The target of an edge has been dealt with, as far as the plan asks for it. -/
def EdgeSettled (c : Course (List Node)) (w : Walk (List Node)) (e : Edge) : Prop :=
  ∀ t, c.graph.find? e.target = some t → c.plan.hides c.graph e.target = false →
    (c.plan.follows c.rooted e.kind t = true → w.Seen e.target) ∧
    (c.plan.collects c.rooted e.kind t = true →
      w.Seen e.target ∨ w.pending.contains e.target = true)

/-- One walk is a later stage of another: it has entered more nodes, it has not forgotten a waiting
one, and the edges of all nodes entered since have been dealt with. -/
structure Grows (c : Course (List Node)) (w w' : Walk (List Node)) : Prop where
  tidy : c.Tidy w'
  more : w.watcher <+: w'.watcher
  waiting : ∀ id, w.pending.contains id = true → w'.Seen id ∨ w'.pending.contains id = true
  settled : ∀ n ∈ w'.watcher, n ∈ w.watcher ∨ ∀ e ∈ n.edges, c.EdgeSettled w' e

variable {c : Course (List Node)} {w w' w'' : Walk (List Node)}

/-- A tidy walk has entered not more nodes than there are. -/
theorem Tidy.length_le (tidy : c.Tidy w) (indexed : c.graph.nodes.Indexed) :
    w.watcher.length ≤ c.graph.nodeList.length := by
  have listed : w.watcher ⊆ c.graph.nodeList :=
    fun n mem => (indexed.mem_toList_iff n).2 (tidy.found n mem)
  exact (List.subperm_of_subset tidy.once.of_map listed).length_le

/-- A tidy walk has not been stopped. -/
theorem Tidy.isGoing (tidy : c.Tidy w) : w.isGoing = true := by
  unfold Walk.isGoing
  rw [tidy.going]
  rfl

/-- A tidy walk is a later stage of itself. -/
theorem Grows.refl (tidy : c.Tidy w) : c.Grows w w :=
  ⟨tidy, List.prefix_rfl, fun _ waits => Or.inr waits, fun _ mem => Or.inl mem⟩

/-- Nodes that have been entered stay entered. -/
theorem Grows.seen (grows : c.Grows w w') {id : NodeId} (seen : w.Seen id) : w'.Seen id :=
  (grows.more.map Node.id).subset seen

/-- A later stage has entered at least as many nodes. -/
theorem Grows.length_le (grows : c.Grows w w') : w.watcher.length ≤ w'.watcher.length :=
  grows.more.length_le

/-- Edges that have been dealt with stay so. -/
theorem Grows.edgeSettled (grows : c.Grows w w') {e : Edge} (settled : c.EdgeSettled w e) :
    c.EdgeSettled w' e := by
  intro t found shown
  obtain ⟨followed, collected⟩ := settled t found shown
  refine ⟨fun follows => grows.seen (followed follows), fun collects => ?_⟩
  rcases collected collects with seen | waits
  · exact Or.inl (grows.seen seen)
  · exact grows.waiting e.target waits

/-- A later stage of a later stage is a later stage. -/
theorem Grows.trans (first : c.Grows w w') (second : c.Grows w' w'') : c.Grows w w'' := by
  refine ⟨second.tidy, first.more.trans second.more, fun id waits => ?_, fun n mem => ?_⟩
  · rcases first.waiting id waits with seen | still
    · exact Or.inl (second.seen seen)
    · exact second.waiting id still
  · rcases second.settled n mem with earlier | settled
    · rcases first.settled n earlier with before | settled
      · exact Or.inl before
      · exact Or.inr fun e edge => second.edgeSettled (settled e edge)
    · exact Or.inr settled

/-! ## One step of the walk -/

/-- The lister does not mind edges. -/
theorem tell_edge (w : Walk (List Node)) (e : Edge) : w.tell Watcher.lister (.edge e) = w := by
  unfold tell
  split <;> rfl

/-- The lister does not mind ends of edges. -/
theorem tell_endEdge (w : Walk (List Node)) (e : Edge) :
    w.tell Watcher.lister (.endEdge e) = w := by
  unfold tell
  split <;> rfl

/-- The lister does not mind nodes that are left. -/
theorem tell_leave (w : Walk (List Node)) (n : Node) : w.tell Watcher.lister (.leave n) = w := by
  unfold tell
  split <;> rfl

/-- Collecting a node that exists and is not hidden makes it wait, unless it has been entered. -/
theorem collect_spec (tidy : c.Tidy w) {id : NodeId} {t : Node} (found : c.graph.find? id = some t)
    (shown : c.plan.hides c.graph id = false) :
    c.Grows w (w.collect id) ∧ ((w.collect id).Seen id ∨ (w.collect id).pending.contains id) := by
  unfold collect
  split
  · next visited => exact ⟨.refl tidy, Or.inl ((tidy.visited id).1 visited)⟩
  · refine ⟨⟨⟨tidy.going, tidy.found, tidy.once, tidy.visited, fun other waits => ?_,
      tidy.clean.insert id⟩, List.prefix_rfl, fun other waits => Or.inr ?_,
      fun n mem => Or.inl mem⟩, Or.inr ?_⟩
    · rw [IdSet.contains_insert, Bool.or_eq_true, beq_iff_eq] at waits
      rcases waits with rfl | before
      · exact ⟨shown, t, found⟩
      · exact tidy.pending other before
    · rw [IdSet.contains_insert, waits, Bool.or_true]
    · rw [IdSet.contains_insert, beq_self_eq_true, Bool.true_or]

/-- Going through an edge leaves it settled, if entering a node settles what it enters. -/
theorem cross_spec (careful : c.Careful) {enter : Node → Walk (List Node) → Walk (List Node)}
    {least : Nat}
    (entering : ∀ n w, c.graph.find? n.id = some n → c.Tidy w → least ≤ w.watcher.length →
      c.Grows w (enter n w) ∧ (enter n w).Seen n.id)
    (tidy : c.Tidy w) (enough : least ≤ w.watcher.length) (e : Edge) :
    c.Grows w (c.cross enter w e) ∧ c.EdgeSettled (c.cross enter w e) e := by
  unfold cross
  rw [tidy.isGoing, careful.watch]
  by_cases hidden : c.plan.hides c.graph e.target = true
  · simp only [hidden, Bool.or_true, if_true]
    exact ⟨.refl tidy, fun t _ shown => absurd (hidden.symm.trans shown) (by decide)⟩
  · have shown := Bool.eq_false_iff.2 hidden
    simp only [shown, Bool.not_true, Bool.or_false, Bool.false_eq_true, if_false]
    split
    · next missing =>
      refine ⟨.refl tidy, fun t found _ => ?_⟩
      rw [missing] at found
      cases found
    · next t found =>
      have target : t.id = e.target := careful.indexed.id_eq found
      simp only [tell_edge, tell_endEdge]
      -- first the target may be collected, then it may be entered
      obtain ⟨collected, waits⟩ : c.Grows w
          (if c.plan.collects c.rooted e.kind t then w.collect e.target else w) ∧
          (c.plan.collects c.rooted e.kind t = true →
            (if c.plan.collects c.rooted e.kind t then w.collect e.target else w).Seen e.target ∨
            (if c.plan.collects c.rooted e.kind t then w.collect e.target else w).pending.contains
              e.target = true) := by
        by_cases collects : c.plan.collects c.rooted e.kind t = true
        · simp only [if_pos collects]
          obtain ⟨grows, waits⟩ := collect_spec tidy found shown
          exact ⟨grows, fun _ => waits⟩
        · simp only [if_neg collects]
          exact ⟨.refl tidy, fun yes => absurd yes collects⟩
      generalize (if c.plan.collects c.rooted e.kind t then w.collect e.target else w) = v
        at collected waits
      have only : ∀ s, c.graph.find? e.target = some s → s = t :=
        fun s same => Option.some.inj (same.symm.trans found)
      by_cases follows : c.plan.follows c.rooted e.kind t = true
      · simp only [if_pos follows]
        obtain ⟨entered, seen⟩ := entering t v (target.symm ▸ found) collected.tidy
          (Nat.le_trans enough collected.length_le)
        rw [target] at seen
        exact ⟨collected.trans entered, fun _ _ _ => ⟨fun _ => seen, fun _ => Or.inl seen⟩⟩
      · simp only [if_neg follows]
        refine ⟨collected, fun s same _ => ?_⟩
        rw [only s same]
        exact ⟨fun yes => absurd yes follows, waits⟩

/-- Going through edges leaves all of them settled. -/
theorem foldl_cross_spec (careful : c.Careful)
    {enter : Node → Walk (List Node) → Walk (List Node)} {least : Nat}
    (entering : ∀ n w, c.graph.find? n.id = some n → c.Tidy w → least ≤ w.watcher.length →
      c.Grows w (enter n w) ∧ (enter n w).Seen n.id)
    (edges : List Edge) {w : Walk (List Node)} (tidy : c.Tidy w)
    (enough : least ≤ w.watcher.length) :
    c.Grows w (edges.foldl (c.cross enter) w) ∧
      ∀ e ∈ edges, c.EdgeSettled (edges.foldl (c.cross enter) w) e := by
  induction edges generalizing w with
  | nil => exact ⟨.refl tidy, fun e absent => absurd absent List.not_mem_nil⟩
  | cons e edges ih =>
    obtain ⟨crossed, settled⟩ := cross_spec careful entering tidy enough e
    obtain ⟨grows, all⟩ := ih crossed.tidy (Nat.le_trans enough crossed.length_le)
    refine ⟨crossed.trans grows, fun other mem => ?_⟩
    rcases List.mem_cons.1 mem with rfl | later
    · exact grows.edgeSettled settled
    · exact all other later

/-- A node that is entered for the first time is remembered and listed. -/
theorem tidy_enter (tidy : c.Tidy w) {n : Node}
    (found : c.graph.find? n.id = some n) (new : ¬ w.Seen n.id) :
    c.Tidy { w with watcher := w.watcher ++ [n], visited := w.visited.insert n.id } := by
  refine ⟨tidy.going, fun m mem => ?_, ?_, fun id => ?_, tidy.pending, tidy.clean⟩
  · rcases List.mem_append.1 mem with old | last
    · exact tidy.found m old
    · rw [List.mem_singleton.1 last]
      exact found
  · rw [List.map_append, List.map_singleton, List.nodup_append]
    refine ⟨tidy.once, List.nodup_singleton _, fun a old b last same => new ?_⟩
    rw [List.mem_singleton.1 last] at same
    exact same ▸ old
  · unfold Seen
    rw [IdSet.contains_insert, Bool.or_eq_true, beq_iff_eq, tidy.visited, List.map_append,
      List.map_singleton, List.mem_append, List.mem_singleton]
    exact or_comm

/-- A node that was not entered yet is listed before its edges are gone through. -/
theorem enter_of_new (careful : c.Careful) (tidy : c.Tidy w) {n : Node} (new : ¬ w.Seen n.id)
    (depth : Nat) :
    c.enter (depth + 1) n w = n.edges.foldl (c.cross (c.enter depth))
      { w with watcher := w.watcher ++ [n], visited := w.visited.insert n.id } := by
  have remembers : c.plan.remembers = true := by
    unfold WalkPlan.remembers
    rw [careful.safe]
    rfl
  have unvisited : w.visited.contains n.id = false :=
    Bool.eq_false_iff.2 fun visited => new ((tidy.visited n.id).1 visited)
  have told : (w.mark n.id).tell Watcher.lister (.enter n) =
      { w with watcher := w.watcher ++ [n], visited := w.visited.insert n.id } := by
    have marked : (w.mark n.id).isGoing = true := tidy.isGoing
    unfold tell
    rw [if_pos marked]
    rfl
  unfold enter
  rw [tidy.isGoing, careful.safe, remembers, careful.watch]
  simp only [unvisited, Bool.not_true, Bool.and_false, Bool.or_self, Bool.false_eq_true, if_false,
    if_true, tell_leave, told]

/-- Entering a node settles all that it enters. The depth has to exceed the number of nodes that
were not entered yet. -/
theorem enter_spec (careful : c.Careful) (depth : Nat) {n : Node} {w : Walk (List Node)}
    (found : c.graph.find? n.id = some n) (tidy : c.Tidy w)
    (enough : c.graph.nodeList.length < depth + w.watcher.length) :
    c.Grows w (c.enter depth n w) ∧ (c.enter depth n w).Seen n.id := by
  induction depth generalizing n w with
  | zero =>
    have few := tidy.length_le careful.indexed
    omega
  | succ depth ih =>
    by_cases seen : w.Seen n.id
    · have visited := (tidy.visited n.id).2 seen
      unfold enter
      rw [tidy.isGoing, careful.safe, visited]
      exact ⟨.refl tidy, seen⟩
    · have entered := tidy_enter tidy found seen
      have entering : ∀ m v, c.graph.find? m.id = some m → c.Tidy v →
          c.graph.nodeList.length + 1 - depth ≤ v.watcher.length →
          c.Grows v (c.enter depth m v) ∧ (c.enter depth m v).Seen m.id := by
        intro m v there between long
        apply ih there between
        omega
      have long : c.graph.nodeList.length + 1 - depth ≤ (w.watcher ++ [n]).length := by
        rw [List.length_append, List.length_singleton]
        omega
      obtain ⟨grows, settled⟩ := foldl_cross_spec careful entering n.edges entered long
      have listed : n ∈ w.watcher ++ [n] := List.mem_append_right _ (List.mem_singleton.2 rfl)
      rw [enter_of_new careful tidy seen]
      refine ⟨⟨grows.tidy, (List.prefix_append _ _).trans grows.more, grows.waiting, ?_⟩,
        grows.seen (List.mem_map_of_mem listed)⟩
      intro m mem
      rcases grows.settled m mem with before | done
      · rcases List.mem_append.1 before with old | last
        · exact Or.inl old
        · rw [List.mem_singleton.1 last]
          exact Or.inr settled
      · exact Or.inr done

/-- A node that was not entered yet is the next one that is listed. -/
theorem prefix_enter (careful : c.Careful) (depth : Nat) {n : Node}
    (found : c.graph.find? n.id = some n) (tidy : c.Tidy w) (new : ¬ w.Seen n.id)
    (enough : c.graph.nodeList.length < depth + 1 + w.watcher.length) :
    w.watcher ++ [n] <+: (c.enter (depth + 1) n w).watcher := by
  have long : c.graph.nodeList.length + 1 - depth ≤ (w.watcher ++ [n]).length := by
    rw [List.length_append, List.length_singleton]
    omega
  have entering : ∀ m v, c.graph.find? m.id = some m → c.Tidy v →
      c.graph.nodeList.length + 1 - depth ≤ v.watcher.length →
      c.Grows v (c.enter depth m v) ∧ (c.enter depth m v).Seen m.id := by
    intro m v there between long
    apply enter_spec careful depth there between
    omega
  rw [enter_of_new careful tidy new]
  exact (foldl_cross_spec careful entering n.edges (tidy_enter tidy found new) long).1.more

/-- A walk that has seen nothing is tidy. -/
theorem tidy_start (c : Course (List Node)) (size : Nat) :
    c.Tidy { watcher := [], visited := .withRoom size } := by
  refine ⟨rfl, fun n absent => absurd absent List.not_mem_nil, List.nodup_nil, fun id => ?_,
    fun id waits => ?_, IdSet.clean_empty⟩
  · simp [Walk.Seen]
  · rw [IdSet.contains_empty] at waits
    cases waits

/-! ## The passes of a walk -/

/-- Entering nodes one after another settles all that they enter. -/
theorem enterAll_spec (careful : c.Careful) (limit : Nat) (nodes : List Node)
    {w : Walk (List Node)} (found : ∀ n ∈ nodes, c.graph.find? n.id = some n) (tidy : c.Tidy w)
    (enough : c.graph.nodeList.length < limit + w.watcher.length) :
    c.Grows w (c.enterAll limit nodes w) ∧ ∀ n ∈ nodes, (c.enterAll limit nodes w).Seen n.id := by
  induction nodes generalizing w with
  | nil => exact ⟨.refl tidy, fun n absent => absurd absent List.not_mem_nil⟩
  | cons n nodes ih =>
    obtain ⟨entered, seen⟩ := enter_spec careful limit (found n List.mem_cons_self) tidy enough
    have longer := entered.length_le
    obtain ⟨grows, all⟩ := ih (fun m mem => found m (List.mem_cons_of_mem n mem)) entered.tidy
      (by omega)
    refine ⟨entered.trans grows, fun m mem => ?_⟩
    rcases List.mem_cons.1 mem with rfl | later
    · exact grows.seen seen
    · exact all m later

/-- The pass over special nodes enters all that are not hidden. -/
theorem foldl_enterSpecial_spec (careful : c.Careful) (limit : Nat) (nodes : List Node)
    {w : Walk (List Node)} (found : ∀ n ∈ nodes, c.graph.find? n.id = some n) (tidy : c.Tidy w)
    (enough : c.graph.nodeList.length < limit + w.watcher.length) :
    c.Grows w (nodes.foldl (c.enterSpecial limit) w) ∧
      ∀ n ∈ nodes, n.kind.isSpecial = true → c.plan.hides c.graph n.id = false →
        (nodes.foldl (c.enterSpecial limit) w).Seen n.id := by
  induction nodes generalizing w with
  | nil => exact ⟨.refl tidy, fun n absent => absurd absent List.not_mem_nil⟩
  | cons n nodes ih =>
    obtain ⟨entered, seen⟩ : c.Grows w (c.enterSpecial limit w n) ∧ (n.kind.isSpecial = true →
        c.plan.hides c.graph n.id = false → (c.enterSpecial limit w n).Seen n.id) := by
      unfold enterSpecial
      split
      · obtain ⟨grows, seen⟩ := enter_spec careful limit (found n List.mem_cons_self) tidy enough
        exact ⟨grows, fun _ _ => seen⟩
      · next skipped =>
        refine ⟨.refl tidy, fun special shown => (tidy.visited n.id).1 ?_⟩
        simpa [special, shown] using skipped
    have longer := entered.length_le
    obtain ⟨grows, all⟩ := ih (fun m mem => found m (List.mem_cons_of_mem n mem)) entered.tidy
      (by omega)
    refine ⟨entered.trans grows, fun m mem special shown => ?_⟩
    rcases List.mem_cons.1 mem with rfl | later
    · exact grows.seen (seen special shown)
    · exact all m later special shown

/-- A later stage of a walk that has seen more has entered more nodes. -/
theorem Grows.length_lt (grows : c.Grows w w') {id : NodeId} (new : ¬ w.Seen id)
    (seen : w'.Seen id) : w.watcher.length < w'.watcher.length := by
  apply Nat.lt_of_le_of_ne grows.length_le
  intro same
  apply new
  unfold Seen
  rw [grows.more.eq_of_length same]
  exact seen

/-- A collected node is entered and waits no longer. Either the walk has entered nothing new, or
its list has become longer. -/
theorem enterCollected_spec (careful : c.Careful) (limit : Nat) {w : Walk (List Node)} {id : NodeId}
    (shown : c.plan.hides c.graph id = false) {n : Node} (found : c.graph.find? id = some n)
    (tidy : c.Tidy w) (enough : c.graph.nodeList.length < limit + w.watcher.length) :
    c.Grows w (c.enterCollected limit w id) ∧
      (((c.enterCollected limit w id).watcher = w.watcher ∧
        ∀ other, (c.enterCollected limit w id).pending.contains other = true →
          other ≠ id ∧ w.pending.contains other = true) ∨
      w.watcher.length < (c.enterCollected limit w id).watcher.length) := by
  have left : ∀ other, (w.drop id).pending.contains other = true ↔
      other ≠ id ∧ w.pending.contains other = true := by
    intro other
    unfold drop
    rw [IdSet.contains_erase, Bool.and_eq_true, bne_iff_ne]
  have dropped : c.Tidy (w.drop id) :=
    ⟨tidy.going, tidy.found, tidy.once, tidy.visited,
      fun other waits => tidy.pending other ((left other).1 waits).2, tidy.clean.erase id⟩
  -- whoever waited is dropped and has been entered, or still waits
  have waiting : ∀ v : Walk (List Node), c.Grows (w.drop id) v → v.Seen id →
      ∀ other, w.pending.contains other = true → v.Seen other ∨ v.pending.contains other = true := by
    intro v grows seen other waits
    by_cases same : other = id
    · exact Or.inl (same ▸ seen)
    · exact grows.waiting other ((left other).2 ⟨same, waits⟩)
  unfold enterCollected
  rw [if_pos tidy.isGoing]
  simp only [shown, found, Bool.or_false]
  by_cases visited : (w.drop id).visited.contains id = true
  · rw [if_pos visited]
    have seen : (w.drop id).Seen id := (dropped.visited id).1 visited
    exact ⟨⟨dropped, List.prefix_rfl, waiting _ (.refl dropped) seen, fun m mem => Or.inl mem⟩,
      Or.inl ⟨rfl, fun other waits => (left other).1 waits⟩⟩
  · rw [if_neg visited]
    have own : n.id = id := careful.indexed.id_eq found
    obtain ⟨grows, seen⟩ := enter_spec careful limit (own.symm ▸ found) dropped enough
    rw [own] at seen
    have new : ¬ (w.drop id).Seen id := fun seen => visited ((dropped.visited id).2 seen)
    exact ⟨⟨grows.tidy, grows.more, waiting _ grows seen, grows.settled⟩,
      Or.inr (grows.length_lt new seen)⟩

/-- A round over waiting nodes enters something new, or none of them waits any longer. -/
theorem foldl_enterCollected_spec (careful : c.Careful) (limit : Nat) (ids : List NodeId)
    {w : Walk (List Node)}
    (there : ∀ id ∈ ids, c.plan.hides c.graph id = false ∧ ∃ n, c.graph.find? id = some n)
    (tidy : c.Tidy w) (enough : c.graph.nodeList.length < limit + w.watcher.length) :
    c.Grows w (ids.foldl (c.enterCollected limit) w) ∧
      (((ids.foldl (c.enterCollected limit) w).watcher = w.watcher ∧
        ∀ other, (ids.foldl (c.enterCollected limit) w).pending.contains other = true →
          other ∉ ids ∧ w.pending.contains other = true) ∨
      w.watcher.length < (ids.foldl (c.enterCollected limit) w).watcher.length) := by
  induction ids generalizing w with
  | nil =>
    exact ⟨.refl tidy, Or.inl ⟨rfl, fun other waits => ⟨List.not_mem_nil, waits⟩⟩⟩
  | cons id ids ih =>
    obtain ⟨shown, n, found⟩ := there id List.mem_cons_self
    obtain ⟨first, change⟩ := enterCollected_spec careful limit shown found tidy enough
    have longer := first.length_le
    obtain ⟨rest, change'⟩ := ih (fun other mem => there other (List.mem_cons_of_mem id mem))
      first.tidy (by omega)
    refine ⟨first.trans rest, ?_⟩
    have longest := rest.length_le
    rw [List.foldl_cons]
    rcases change with ⟨same, left⟩ | more
    · rcases change' with ⟨same', left'⟩ | more'
      · refine Or.inl ⟨same'.trans same, fun other waits => ?_⟩
        obtain ⟨absent, still⟩ := left' other waits
        obtain ⟨different, before⟩ := left other still
        exact ⟨fun mem => (List.mem_cons.1 mem).elim different absent, before⟩
      · right
        omega
    · right
      omega

/-- The rounds over waiting nodes come to an end at which nobody waits. There have to be two more
than nodes that were not entered yet. -/
theorem finish_spec (careful : c.Careful) (limit rounds : Nat) {w : Walk (List Node)}
    (tidy : c.Tidy w) (enough : c.graph.nodeList.length < limit + w.watcher.length)
    (many : c.graph.nodeList.length + 2 ≤ rounds + w.watcher.length) :
    c.Grows w (c.finish limit rounds w) ∧
      ∀ id, (c.finish limit rounds w).pending.contains id = false := by
  have few := tidy.length_le careful.indexed
  induction rounds generalizing w with
  | zero => omega
  | succ rounds ih =>
    unfold finish
    simp only [tidy.isGoing, Bool.not_true, Bool.false_or]
    by_cases done : w.pending.isEmpty = true
    · rw [if_pos done]
      exact ⟨.refl tidy, fun id => IdSet.contains_of_isEmpty done id⟩
    · rw [if_neg done]
      have there : ∀ id ∈ w.pending.toList,
          c.plan.hides c.graph id = false ∧ ∃ n, c.graph.find? id = some n :=
        fun id mem => tidy.pending id ((tidy.clean.mem_toList_iff id).1 mem)
      obtain ⟨round, change⟩ := foldl_enterCollected_spec careful limit _ there tidy enough
      have longer := round.length_le
      have fewer := round.tidy.length_le careful.indexed
      rcases change with ⟨same, left⟩ | more
      · -- nothing was entered, so the round has emptied the set and the next one ends the walk
        have nothing : ∀ id, (w.pending.toList.foldl (c.enterCollected limit)
            w).pending.contains id = false := by
          intro id
          rw [Bool.eq_false_iff]
          intro waits
          obtain ⟨absent, before⟩ := left id waits
          exact absent ((tidy.clean.mem_toList_iff id).2 before)
        have emptied := round.tidy.clean.isEmpty nothing
        cases rounds with
        | zero => omega
        | succ rounds =>
          unfold finish
          rw [emptied, Bool.or_true, if_pos rfl]
          exact ⟨round, nothing⟩
      · obtain ⟨grows, nothing⟩ := ih round.tidy (by omega) (by omega) fewer
        exact ⟨round.trans grows, nothing⟩

/-- What a walk has done when it has come to its end: it has entered the nodes it starts from, and
the targets of all edges that its plan follows or collects. -/
structure Finished (c : Course (List Node)) (root : Option Node) (w : Walk (List Node)) : Prop where
  tidy : c.Tidy w
  closed : ∀ n ∈ w.watcher, ∀ e ∈ n.edges, ∀ t, c.graph.find? e.target = some t →
    c.plan.hides c.graph e.target = false →
    c.plan.follows c.rooted e.kind t = true ∨ c.plan.collects c.rooted e.kind t = true →
    w.Seen e.target
  starts : root = none → ∀ n ∈ c.starts, w.Seen n.id
  origin : ∀ n, root = some n → w.Seen n.id
  special : root.isSome = true → c.plan.special = true → c.plan.usedOnly = false →
    ∀ n ∈ c.graph.nodeList, n.kind.isSpecial = true → c.plan.hides c.graph n.id = false →
    w.Seen n.id

/-- A stage of a walk that began with nothing, at which nobody waits, is closed. -/
theorem Grows.closed (grows : c.Grows w w') (fresh : w.watcher = [])
    (nobody : ∀ (e : Edge) t, c.graph.find? e.target = some t →
      c.plan.collects c.rooted e.kind t = true → w'.pending.contains e.target = false) :
    ∀ n ∈ w'.watcher, ∀ e ∈ n.edges, ∀ t, c.graph.find? e.target = some t →
      c.plan.hides c.graph e.target = false →
      c.plan.follows c.rooted e.kind t = true ∨ c.plan.collects c.rooted e.kind t = true →
      w'.Seen e.target := by
  intro n mem e edge t found shown goes
  rcases grows.settled n mem with before | settled
  · rw [fresh] at before
    exact absurd before List.not_mem_nil
  · obtain ⟨followed, collected⟩ := settled e edge t found shown
    rcases goes with follows | collects
    · exact followed follows
    · rcases collected collects with seen | waits
      · exact seen
      · rw [nobody e t found collects] at waits
        cases waits

/-- A walk that has room for all nodes comes to its end. -/
theorem run_spec (careful : c.Careful) {limit : Nat} {root : Option Node}
    (rooted : c.rooted = root.isSome) (found : ∀ n, root = some n → c.graph.find? n.id = some n)
    (tidy : c.Tidy w) (fresh : w.watcher = [])
    (enough : c.graph.nodeList.length + 2 ≤ limit) : c.Finished root (c.run limit root w) := by
  have long : c.graph.nodeList.length < limit + w.watcher.length := by omega
  have listed : ∀ n ∈ c.graph.nodeList, c.graph.find? n.id = some n :=
    fun n mem => (careful.indexed.mem_toList_iff n).1 mem
  cases root with
  | none =>
    obtain ⟨grows, seen⟩ := enterAll_spec careful limit c.starts
      (fun n mem => listed n (List.mem_filter.1 mem).1) tidy long
    have closed := grows.closed fresh fun e t _ collects => by
      simp [WalkPlan.collects, rooted] at collects
    refine ⟨grows.tidy, closed, fun _ => seen, ?_, ?_⟩
    · intro n absent
      cases absent
    · intro absent
      cases absent
  | some n =>
    obtain ⟨entered, seen⟩ := enter_spec careful limit (found n rfl) tidy long
    have new : ¬ w.Seen n.id := by
      unfold Seen
      rw [fresh]
      exact List.not_mem_nil
    have longer := entered.length_lt new seen
    -- the pass over special nodes, which a plan may leave out
    obtain ⟨special, specialSeen⟩ : c.Grows (c.enter limit n w)
        (if c.plan.special && !c.plan.usedOnly then
          c.graph.nodeList.foldl (c.enterSpecial limit) (c.enter limit n w)
        else c.enter limit n w) ∧
        (c.plan.special = true → c.plan.usedOnly = false → ∀ m ∈ c.graph.nodeList,
          m.kind.isSpecial = true → c.plan.hides c.graph m.id = false →
          (if c.plan.special && !c.plan.usedOnly then
            c.graph.nodeList.foldl (c.enterSpecial limit) (c.enter limit n w)
          else c.enter limit n w).Seen m.id) := by
      split
      · obtain ⟨grows, all⟩ := foldl_enterSpecial_spec careful limit c.graph.nodeList listed
          entered.tidy (by omega)
        exact ⟨grows, fun _ _ => all⟩
      · next left =>
        refine ⟨.refl entered.tidy, fun special usedOnly => ?_⟩
        simp [special, usedOnly] at left
    have second := entered.trans special
    have longest := second.length_le
    unfold run
    simp only
    generalize (if c.plan.special && !c.plan.usedOnly then
        c.graph.nodeList.foldl (c.enterSpecial limit) (c.enter limit n w)
      else c.enter limit n w) = v at special specialSeen second longest
    split
    · have bound := special.length_le
      obtain ⟨third, nobody⟩ := finish_spec careful limit limit second.tidy (by omega) (by omega)
      have all := second.trans third
      have closed := all.closed fresh fun e _ _ _ => nobody e.target
      refine ⟨all.tidy, closed, ?_, ?_, ?_⟩
      · intro absent
        cases absent
      · intro m same
        cases same
        exact third.seen (special.seen seen)
      · exact fun _ yes no m mem kind shown => third.seen (specialSeen yes no m mem kind shown)
    · next never =>
      have closed := second.closed fresh fun e t _ collects => by
        rw [Bool.or_eq_true, not_or, Bool.not_eq_true, Bool.not_eq_true] at never
        simp [WalkPlan.collects, never.1, never.2] at collects
      refine ⟨second.tidy, closed, ?_, ?_, fun _ => specialSeen⟩
      · intro absent
        cases absent
      · intro m same
        cases same
        exact special.seen seen

end Course

end Walk

end CodeGraph
