import CodeGraph.Proofs.EventTraces
import CodeGraph.Proofs.SafeWalks
import CodeGraph.Proofs.Subtree

/-!
# Walks to collected nodes

A walk from a root may end with a pass over the nodes that it has collected. The pass goes to a node
only if it has not been visited before, so with every node it goes to there are fewer that it can
still go to, and it ends whatever cycles the collected edges form. For this the walk has to remember
the nodes it has visited. A plan that only collects special nodes does not see to that by itself:
then the pass may go to a node again and again. Main statement: `Graph.collected_new_after`.

Where containment has no cycles, the nodes that are open at one time are different from each other,
so a walk along containment edges does not get lost even if it enters nodes more than once.
-/

set_option autoImplicit false

namespace CodeGraph

open Relation

variable {τ : Type}

namespace Graph

/-- Containment edges lead from no node back to it. -/
def Acyclic (g : Graph) : Prop :=
  ∀ id, ¬ TransGen (fun p x => x ∈ g.nodes.children p) id id

/-- A visited node has an edge to this one, of a sort whose targets the plan collects. -/
def Wanted (g : Graph) (plan : WalkPlan) (events : List Event) (t : Node) : Prop :=
  ∃ n, g.find? n.id = some n ∧ n.id ∈ Event.visits events ∧
    ∃ e ∈ n.edges, e.target = t.id ∧ plan.collects true e.kind t = true

/-- What is reported when collected nodes are gone to, after the events before: traces of nodes, one
after the other, and none of these nodes had been visited when its trace began. -/
inductive Fetches (g : Graph) (plan : WalkPlan) : List Event → List Event → Prop
  | nil {before : List Event} : Fetches g plan before []
  | cons {before first later : List Event} {n : Node} (found : g.find? n.id = some n)
      (wanted : g.Wanted plan before n) (new : n.id ∉ Event.visits before)
      (trace : g.NodeTrace plan n first) (rest : Fetches g plan (before ++ first) later) :
      Fetches g plan before (first ++ later)

variable {g : Graph} {plan : WalkPlan}

/-- The far ends of the containment edges of a node are its children. -/
theorem mem_children {n : Node} {id : NodeId} (found : g.find? id = some n) {e : Edge}
    (edge : e ∈ n.edges) (contains : e.kind.isContainment = true) :
    e.target ∈ g.nodes.children id := by
  have there : g.nodes.find? id = some n := found
  unfold NodeTable.children
  rw [there]
  exact List.mem_map.2 ⟨e, List.mem_filter.2 ⟨edge, contains⟩, rfl⟩

/-- What is wanted stays wanted as more is reported. -/
theorem Wanted.mono {events later : List Event} {t : Node} (wanted : g.Wanted plan events t)
    (more : events <+: later) : g.Wanted plan later t := by
  obtain ⟨n, found, visited, edge⟩ := wanted
  exact ⟨n, found, (more.filterMap Event.visited?).subset visited, edge⟩

/-- Going to some collected nodes and then to others is going to all of them. -/
theorem Fetches.append {before first later : List Event} (one : g.Fetches plan before first)
    (rest : g.Fetches plan (before ++ first) later) : g.Fetches plan before (first ++ later) := by
  induction one with
  | nil =>
    rw [List.append_nil] at rest
    exact rest
  | cons found wanted new trace _ ih =>
    rw [← List.append_assoc] at rest
    rw [List.append_assoc]
    exact .cons found wanted new trace (ih rest)

end Graph

namespace Walk

/-- The events of the steps that have been written down. -/
def events (w : Walk (List Step)) : List Event :=
  Step.allEvents w.watcher

namespace Course

/-- What has been marked stays marked. -/
theorem kept_visited (c : Course τ) (id : NodeId) :
    c.Kept fun w => w.visited.contains id = true where
  tell w step marked := by
    unfold Walk.tell
    split
    · split <;> exact marked
    · exact marked
  mark w other marked := by
    unfold Walk.mark
    rw [IdSet.contains_insert, marked, Bool.or_true]
  collect w other marked := by
    unfold Walk.collect
    split <;> exact marked
  drop _ _ marked := marked
  lose w marked := by
    unfold Walk.lose
    split <;> exact marked

/-- The nodes that have not been marked. -/
def unvisited (c : Course τ) (w : Walk τ) : Finset NodeId :=
  (c.graph.nodeList.map Node.id).toFinset.filter fun id => w.visited.contains id = false

/-- There are not more unmarked nodes than nodes. -/
theorem card_unvisited_le (c : Course τ) (w : Walk τ) :
    (c.unvisited w).card ≤ c.graph.nodeList.length := by
  calc (c.unvisited w).card ≤ (c.graph.nodeList.map Node.id).toFinset.card :=
        Finset.card_filter_le _ _
    _ ≤ (c.graph.nodeList.map Node.id).length := List.toFinset_card_le _
    _ = c.graph.nodeList.length := List.length_map _

/-- A part of a walk leaves no more nodes unmarked than there were. -/
theorem unvisited_subset {c : Course τ} {w w' : Walk τ} (part : c.Part w w') :
    c.unvisited w' ⊆ c.unvisited w := by
  intro id mem
  obtain ⟨listed, unmarked⟩ := Finset.mem_filter.1 mem
  refine Finset.mem_filter.2 ⟨listed, Bool.eq_false_iff.2 fun marked => ?_⟩
  have still : w'.visited.contains id = true := part _ (c.kept_visited id) marked
  rw [unmarked] at still
  cases still

/-- A part of a walk that marks a node leaves fewer. -/
theorem card_unvisited_lt {c : Course τ} {w w' : Walk τ} (part : c.Part w w') {n : Node}
    (listed : n ∈ c.graph.nodeList) (before : w.visited.contains n.id = false)
    (after : w'.visited.contains n.id = true) : (c.unvisited w').card < (c.unvisited w).card := by
  refine Finset.card_lt_card
    (Finset.ssubset_iff_subset_ne.2 ⟨unvisited_subset part, fun same => ?_⟩)
  have mem : n.id ∈ c.unvisited w :=
    Finset.mem_filter.2 ⟨List.mem_toFinset.2 (List.mem_map_of_mem listed), before⟩
  rw [← same] at mem
  have unmarked := (Finset.mem_filter.1 mem).2
  rw [after] at unmarked
  cases unmarked

/-- A walk that may enter a node first marks and reports it. -/
theorem part_of_new {c : Course τ} {w : Walk τ} {n : Node} (going : w.isGoing = true)
    (new : (c.plan.safe && w.visited.contains n.id) = false) (depth : Nat) :
    c.Part ((if c.plan.remembers then w.mark n.id else w).tell c.watch (.enter n))
      (c.enter (depth + 1) n w) := by
  intro P kept holds
  rw [c.enter_of_going going new]
  exact kept.tell _ (.leave n) (List.foldlRecOn n.edges _ holds fun v holds e _ =>
    c.part_cross (c.part_enter depth) e v P kept holds)

/-- The part of a walk from a root that comes before the pass over collected nodes. -/
def approach (c : Course τ) (limit : Nat) (n : Node) (w : Walk τ) : Walk τ :=
  if c.plan.special && !c.plan.usedOnly then
    c.graph.nodeList.foldl (c.enterSpecial limit) (c.enter limit n w)
  else
    c.enter limit n w

/-- A walk from a root is what comes before the pass over collected nodes, and that pass if the plan
asks for it. -/
theorem run_some (c : Course τ) (limit : Nat) (n : Node) (w : Walk τ) :
    c.run limit (some n) w =
      if c.plan.crossEdgeTree || c.plan.usedOnly then c.finish limit limit (c.approach limit n w)
      else c.approach limit n w :=
  rfl

/-! ## Walks that do not get lost -/

/-- A course from a root along containment edges that have no cycles, watched by one who writes the
steps down. -/
structure Calm (c : Course (List Step)) : Prop where
  watch : c.watch = Watcher.recorder
  rooted : c.rooted = true
  indexed : c.graph.nodes.Indexed
  acyclic : c.graph.Acyclic
  uncrossed : ∀ kind, c.plan.crossEdges.contains kind = false

/-- How a walk stands between two steps. -/
structure Steady (c : Course (List Step)) (w : Walk (List Step)) : Prop where
  going : w.progress = .going
  /-- A walk that has to remembers all nodes it has visited. -/
  remembered : c.plan.remembers = true → ∀ id ∈ Event.visits w.events, w.visited.contains id = true
  /-- Nodes wait only if they exist, are not hidden and are wanted. -/
  pending : ∀ id, w.pending.contains id = true → c.plan.hides c.graph id = false ∧
    ∃ t, c.graph.find? id = some t ∧ c.graph.Wanted c.plan w.events t
  clean : w.pending.Clean

variable {c : Course (List Step)} {w w' : Walk (List Step)}

/-- A steady walk has not been stopped. -/
theorem Steady.isGoing (steady : c.Steady w) : w.isGoing = true := by
  unfold Walk.isGoing
  rw [steady.going]
  rfl

/-- Events that have been reported stay. -/
theorem Calm.events_prefix (calm : c.Calm) (part : c.Part w w') : w.events <+: w'.events := by
  have same : c.recorded = c := by
    unfold recorded watchedBy
    rw [← calm.watch]
  have steps := c.kept_steps w.watcher
  rw [same] at steps
  obtain ⟨more, grown⟩ := part _ steps List.prefix_rfl
  unfold events
  rw [← grown]
  exact ⟨Step.allEvents more, List.flatMap_append.symm⟩

/-- Being told a step, the recorder writes it down and nothing else happens. -/
theorem Steady.tell_eq (steady : c.Steady w) (calm : c.Calm) (step : Step) :
    w.tell c.watch step = { w with watcher := w.watcher ++ [step] } := by
  unfold tell
  rw [if_pos steady.isGoing, calm.watch]
  rfl

/-- A step is reported, which enters a marked node if it enters one. -/
theorem Steady.tell (steady : c.Steady w) (calm : c.Calm) (step : Step)
    (marked : c.plan.remembers = true → ∀ id ∈ Event.visits step.events,
      w.visited.contains id = true) : c.Steady (w.tell c.watch step) := by
  have more := calm.events_prefix (c.part_tell step w)
  rw [steady.tell_eq calm] at more ⊢
  refine ⟨steady.going, fun remembers id visited => ?_, fun id waits => ?_, steady.clean⟩
  · have split : Event.visits (Step.allEvents (w.watcher ++ [step])) =
        Event.visits w.events ++ Event.visits step.events := by
      unfold Step.allEvents
      rw [List.flatMap_append, List.flatMap_singleton, Event.visits_append]
      rfl
    rw [events, split] at visited
    rcases List.mem_append.1 visited with before | now
    · exact steady.remembered remembers id before
    · exact marked remembers id now
  · obtain ⟨shown, t, found, wanted⟩ := steady.pending id waits
    exact ⟨shown, t, found, wanted.mono more⟩

/-- A node that is entered is among those that have been visited. -/
theorem Steady.mem_visits_tell (steady : c.Steady w) (calm : c.Calm) (n : Node) :
    n.id ∈ Event.visits (w.tell c.watch (.enter n)).events := by
  rw [steady.tell_eq calm, events, Event.visits_allEvents, List.filterMap_append, List.map_append]
  exact List.mem_append_right _ List.mem_cons_self

/-- A walk stays steady when a wanted node is collected that exists and is not hidden. -/
theorem Steady.collect (steady : c.Steady w) {id : NodeId} {t : Node}
    (shown : c.plan.hides c.graph id = false) (found : c.graph.find? id = some t)
    (wanted : c.graph.Wanted c.plan w.events t) : c.Steady (w.collect id) := by
  unfold Walk.collect
  split
  · exact steady
  · refine ⟨steady.going, steady.remembered, fun other waits => ?_, steady.clean.insert id⟩
    rw [IdSet.contains_insert, Bool.or_eq_true, beq_iff_eq] at waits
    rcases waits with rfl | before
    · exact ⟨shown, t, found, wanted⟩
    · exact steady.pending other before

/-- A walk stays steady when a node is marked. -/
theorem Steady.mark (steady : c.Steady w) (id : NodeId) : c.Steady (w.mark id) :=
  ⟨steady.going, fun remembers other visited =>
    (c.kept_visited other).mark w id (steady.remembered remembers other visited),
    steady.pending, steady.clean⟩

/-- A walk stays steady when a node is marked if the plan asks for it. -/
theorem Steady.mark_if (steady : c.Steady w) (id : NodeId) :
    c.Steady (if c.plan.remembers then w.mark id else w) := by
  split
  · exact steady.mark id
  · exact steady

/-- Dropping a collected node leaves the others. -/
theorem contains_drop {id other : NodeId} : (w.drop id).pending.contains other = true ↔
    other ≠ id ∧ w.pending.contains other = true := by
  unfold drop
  rw [IdSet.contains_erase, Bool.and_eq_true, bne_iff_ne]

/-- A walk stays steady when a collected node is dropped. -/
theorem Steady.drop (steady : c.Steady w) (id : NodeId) : c.Steady (w.drop id) :=
  ⟨steady.going, steady.remembered,
    fun other waits => steady.pending other (contains_drop.1 waits).2, steady.clean.erase id⟩

/-- Going through an edge of a visited node keeps a walk steady, if entering its children does. -/
theorem Steady.cross (calm : c.Calm) {n : Node} (there : c.graph.find? n.id = some n)
    {enter : Node → Walk (List Step) → Walk (List Step)}
    (entering : ∀ t w, c.graph.find? t.id = some t → t.id ∈ c.graph.nodes.children n.id →
      c.Steady w → c.Steady (enter t w))
    (steady : c.Steady w) (visited : n.id ∈ Event.visits w.events) {e : Edge} (edge : e ∈ n.edges) :
    c.Steady (c.cross enter w e) := by
  rcases c.passes_or_meets w e with passes | ⟨t, meets⟩
  · rw [c.cross_of_passes passes]
    exact steady
  · rw [c.cross_of_meets meets]
    dsimp only
    have at_target : t.id = e.target := calm.indexed.id_eq meets.found
    have collected : c.Steady
        (if c.plan.collects c.rooted e.kind t then w.collect e.target else w) := by
      split
      · next collects =>
        rw [calm.rooted] at collects
        exact steady.collect meets.shown meets.found
          ⟨n, there, visited, e, edge, at_target.symm, collects⟩
      · exact steady
    have told := collected.tell calm (.edge e) fun _ id none => absurd none List.not_mem_nil
    refine Steady.tell ?_ calm (.endEdge e) fun _ id none => absurd none List.not_mem_nil
    split
    · next follows =>
      have contains : e.kind.isContainment = true := by
        rcases allowed_of_follows follows with contains | crosses
        · exact contains
        · rw [calm.uncrossed] at crosses
          cases crosses
      refine entering t _ (at_target.symm ▸ meets.found) ?_ told
      rw [at_target]
      exact Graph.mem_children there edge contains
    · exact told

/-- Going through edges of a visited node keeps a walk steady, if entering its children does. -/
theorem Steady.foldl_cross (calm : c.Calm) {n : Node} (there : c.graph.find? n.id = some n)
    {enter : Node → Walk (List Step) → Walk (List Step)}
    (part : ∀ t w, c.Part w (enter t w))
    (entering : ∀ t w, c.graph.find? t.id = some t → t.id ∈ c.graph.nodes.children n.id →
      c.Steady w → c.Steady (enter t w))
    {edges : List Edge} (own : edges ⊆ n.edges) (steady : c.Steady w)
    (visited : n.id ∈ Event.visits w.events) : c.Steady (edges.foldl (c.cross enter) w) := by
  induction edges generalizing w with
  | nil => exact steady
  | cons e edges ih =>
    obtain ⟨edge, others⟩ := List.cons_subset.1 own
    have more := calm.events_prefix (c.part_cross part e w)
    exact ih others (steady.cross calm there entering visited edge)
      ((more.filterMap Event.visited?).subset visited)

/-- Entering a node keeps a walk steady. The nodes on the way from where the walk began lie above it
and are different from each other, so there is room for them. -/
theorem Steady.enter (calm : c.Calm) (depth : Nat) {n : Node} (there : c.graph.find? n.id = some n)
    {path : List Node} (once : path.Nodup)
    (above : ∀ m ∈ path, c.graph.find? m.id = some m ∧
      TransGen (fun p x => x ∈ c.graph.nodes.children p) m.id n.id)
    (enough : c.graph.nodeList.length < depth + path.length) (steady : c.Steady w) :
    c.Steady (c.enter depth n w) := by
  induction depth generalizing n path w with
  | zero =>
    have listed : path ⊆ c.graph.nodeList :=
      fun m mem => (calm.indexed.mem_toList_iff m).2 (above m mem).1
    have few := (List.subperm_of_subset once listed).length_le
    omega
  | succ depth ih =>
    cases seen : c.plan.safe && w.visited.contains n.id with
    | true =>
      have stays : c.enter (depth + 1) n w = w := by
        unfold Course.enter
        rw [seen, Bool.or_true, if_pos rfl]
      rw [stays]
      exact steady
    | false =>
      rw [c.enter_of_going steady.isGoing seen]
      dsimp only
      have marked := steady.mark_if n.id
      have entered : c.Steady ((if c.plan.remembers then w.mark n.id else w).tell c.watch
          (.enter n)) := by
        refine marked.tell calm (.enter n) fun remembers id now => ?_
        rw [List.mem_singleton.1 now, if_pos remembers]
        unfold Walk.mark
        rw [IdSet.contains_insert, beq_self_eq_true, Bool.true_or]
      have visited := marked.mem_visits_tell calm n
      have fresh : n ∉ path := fun mem => calm.acyclic n.id (above n mem).2
      have entering : ∀ t v, c.graph.find? t.id = some t → t.id ∈ c.graph.nodes.children n.id →
          c.Steady v → c.Steady (c.enter depth t v) := by
        intro t v found child steady
        refine ih found (List.nodup_cons.2 ⟨fresh, once⟩) (List.forall_mem_cons.2
          ⟨⟨there, .single child⟩, fun m mem => ?_⟩) ?_ steady
        · exact ⟨(above m mem).1, (above m mem).2.tail child⟩
        · rw [List.length_cons]
          omega
      exact (entered.foldl_cross calm there (c.part_enter depth) entering (List.Subset.refl _)
        visited).tell calm (.leave n) fun _ id none => absurd none List.not_mem_nil

/-- A walk that enters a node from outside has room for all nodes. -/
theorem Steady.enter_first (calm : c.Calm) {limit : Nat}
    (enough : c.graph.nodeList.length < limit) {n : Node} (there : c.graph.find? n.id = some n)
    (steady : c.Steady w) : c.Steady (c.enter limit n w) := by
  have nobody : ([] : List Node).Nodup := List.nodup_nil
  exact steady.enter calm limit there nobody (fun m absent => absurd absent List.not_mem_nil) enough

/-- A walk from a root is steady when it comes to the collected nodes. -/
theorem Steady.approach (calm : c.Calm) {limit : Nat} (enough : c.graph.nodeList.length < limit)
    {n : Node} (there : c.graph.find? n.id = some n) (steady : c.Steady w) :
    c.Steady (c.approach limit n w) := by
  have entered := steady.enter_first calm enough there
  unfold Course.approach
  split
  · refine List.foldlRecOn _ _ entered fun v steady m mem => ?_
    unfold enterSpecial
    split
    · exact steady.enter_first calm enough ((calm.indexed.mem_toList_iff m).1 mem)
    · exact steady
  · exact entered

/-! ## The pass over collected nodes -/

/-- A node that has not been marked is entered, and its trace is reported. -/
theorem Steady.enter_new (calm : c.Calm) (remembers : c.plan.remembers = true) {limit : Nat}
    (enough : c.graph.nodeList.length < limit) {n : Node} (there : c.graph.find? n.id = some n)
    (steady : c.Steady w) (unmarked : w.visited.contains n.id = false) :
    (c.enter limit n w).visited.contains n.id = true ∧
      ∃ trace, (c.enter limit n w).events = w.events ++ trace ∧
        c.graph.NodeTrace c.plan n trace := by
  obtain ⟨depth, rfl⟩ : ∃ depth, limit = depth + 1 := ⟨limit - 1, by omega⟩
  have enters : (c.plan.safe && w.visited.contains n.id) = false := by
    rw [unmarked, Bool.and_false]
  have first := part_of_new steady.isGoing enters depth
  have marked : (c.enter (depth + 1) n w).visited.contains n.id = true := by
    refine first _ (c.kept_visited n.id) ((c.kept_visited n.id).tell _ _ ?_)
    rw [if_pos remembers]
    unfold Walk.mark
    rw [IdSet.contains_insert, beq_self_eq_true, Bool.true_or]
  have visits : n.id ∈ Event.visits (c.enter (depth + 1) n w).events :=
    ((calm.events_prefix first).filterMap Event.visited?).subset
      ((steady.mark_if n.id).mem_visits_tell calm n)
  -- what is reported is complete because the walk goes on, and not empty because the node is new
  obtain ⟨told, whole, grown, trace, -, all, -⟩ := tells_enter calm.watch (depth + 1) n w
  obtain ⟨-, complete⟩ := all (steady.enter_first calm enough there).isGoing
  have longer : (c.enter (depth + 1) n w).events = w.events ++ whole := by
    rw [events, grown, ← complete]
    exact List.flatMap_append
  refine ⟨marked, whole, longer, trace.resolve_left fun nothing => ?_⟩
  rw [longer, nothing, List.append_nil] at visits
  rw [steady.remembered remembers n.id visits] at unmarked
  cases unmarked

/-- A collected node is gone to if it has not been visited, and waits no longer otherwise. -/
theorem Steady.enterCollected (calm : c.Calm) (remembers : c.plan.remembers = true) {limit : Nat}
    (enough : c.graph.nodeList.length < limit) (steady : c.Steady w) {id : NodeId} {n : Node}
    (shown : c.plan.hides c.graph id = false) (found : c.graph.find? id = some n)
    (wanted : c.graph.Wanted c.plan w.events n) :
    let w' := c.enterCollected limit w id
    c.Steady w' ∧ ∃ last, w'.events = w.events ++ last ∧ c.graph.Fetches c.plan w.events last ∧
      ((c.unvisited w').card < (c.unvisited w).card ∨
        ∀ other, w'.pending.contains other = true →
          other ≠ id ∧ w.pending.contains other = true) := by
  have own : n.id = id := calm.indexed.id_eq found
  subst own
  have dropped := steady.drop n.id
  have goes : c.enterCollected limit w n.id =
      if w.visited.contains n.id then w.drop n.id else c.enter limit n (w.drop n.id) := by
    have same : (w.drop n.id).visited = w.visited := rfl
    unfold Course.enterCollected
    rw [if_pos steady.isGoing]
    simp only [same, shown, found, Bool.or_false]
  dsimp only
  rw [goes]
  cases visited : w.visited.contains n.id with
  | true =>
    rw [if_pos rfl]
    exact ⟨dropped, [], (List.append_nil _).symm, .nil, Or.inr fun other => contains_drop.1⟩
  | false =>
    rw [if_neg Bool.false_ne_true]
    obtain ⟨marked, whole, longer, trace⟩ := dropped.enter_new calm remembers enough found visited
    have fewer := card_unvisited_lt (c.part_enter limit n (w.drop n.id))
      ((calm.indexed.mem_toList_iff n).2 found) visited marked
    have new : n.id ∉ Event.visits w.events := by
      intro before
      rw [steady.remembered remembers n.id before] at visited
      cases visited
    refine ⟨dropped.enter_first calm enough found, whole, longer, ?_, Or.inl fewer⟩
    rw [← List.append_nil whole]
    exact .cons found wanted new trace .nil

/-- A round over collected nodes goes to those that have not been visited. Unless it goes to one,
none of them waits any longer. -/
theorem Steady.foldl_enterCollected (calm : c.Calm) (remembers : c.plan.remembers = true)
    {limit : Nat} (enough : c.graph.nodeList.length < limit) {ids : List NodeId}
    (there : ∀ id ∈ ids, c.plan.hides c.graph id = false ∧
      ∃ t, c.graph.find? id = some t ∧ c.graph.Wanted c.plan w.events t)
    (steady : c.Steady w) :
    let w' := ids.foldl (c.enterCollected limit) w
    c.Steady w' ∧ ∃ last, w'.events = w.events ++ last ∧ c.graph.Fetches c.plan w.events last ∧
      ((c.unvisited w').card < (c.unvisited w).card ∨
        ∀ other, w'.pending.contains other = true →
          other ∉ ids ∧ w.pending.contains other = true) := by
  induction ids generalizing w with
  | nil =>
    exact ⟨steady, [], (List.append_nil _).symm, .nil,
      Or.inr fun other waits => ⟨List.not_mem_nil, waits⟩⟩
  | cons id ids ih =>
    obtain ⟨⟨shown, n, found, wanted⟩, others⟩ := List.forall_mem_cons.1 there
    obtain ⟨between, first, grown, fetched, change⟩ :=
      steady.enterCollected calm remembers enough shown found wanted
    have later : ∀ other ∈ ids, c.plan.hides c.graph other = false ∧
        ∃ t, c.graph.find? other = some t ∧
          c.graph.Wanted c.plan (c.enterCollected limit w id).events t := by
      intro other mem
      obtain ⟨shown, t, found, wanted⟩ := others other mem
      exact ⟨shown, t, found, wanted.mono (grown ▸ List.prefix_append _ _)⟩
    obtain ⟨last, further, grown', fetched', change'⟩ := ih later between
    rw [grown] at grown' fetched'
    refine ⟨last, first ++ further, ?_, fetched.append fetched', ?_⟩
    · rw [List.foldl_cons, grown', List.append_assoc]
    · have part : c.Part (c.enterCollected limit w id)
          (ids.foldl (c.enterCollected limit) (c.enterCollected limit w id)) :=
        fun P kept holds => List.foldlRecOn ids _ holds fun v holds other _ =>
          c.part_enterCollected limit other v P kept holds
      have fewer := Finset.card_le_card (unvisited_subset (c.part_enterCollected limit id w))
      have fewer' := Finset.card_le_card (unvisited_subset part)
      rw [List.foldl_cons]
      rcases change with less | left
      · exact Or.inl (by omega)
      · rcases change' with less | left'
        · exact Or.inl (by omega)
        · refine Or.inr fun other waits => ?_
          obtain ⟨absent, still⟩ := left' other waits
          obtain ⟨different, before⟩ := left other still
          exact ⟨fun mem => (List.mem_cons.1 mem).elim different absent, before⟩

/-- The rounds over collected nodes come to an end. There have to be two more than nodes that have
not been visited. -/
theorem Steady.finish (calm : c.Calm) (remembers : c.plan.remembers = true) {limit : Nat}
    (enough : c.graph.nodeList.length < limit) {rounds : Nat} (steady : c.Steady w)
    (many : (c.unvisited w).card + 2 ≤ rounds) :
    let w' := c.finish limit rounds w
    c.Steady w' ∧ ∃ last, w'.events = w.events ++ last ∧ c.graph.Fetches c.plan w.events last := by
  induction rounds generalizing w with
  | zero => omega
  | succ rounds ih =>
    unfold Course.finish
    simp only [steady.isGoing, Bool.not_true, Bool.false_or]
    by_cases done : w.pending.isEmpty = true
    · rw [if_pos done]
      exact ⟨steady, [], (List.append_nil _).symm, .nil⟩
    · rw [if_neg done]
      obtain ⟨between, first, grown, fetched, change⟩ :=
        steady.foldl_enterCollected calm remembers enough
          fun id mem => steady.pending id ((steady.clean.mem_toList_iff id).1 mem)
      rcases change with less | left
      · obtain ⟨ends, further, grown', fetched'⟩ := ih between (by omega)
        rw [grown] at grown' fetched'
        exact ⟨ends, first ++ further, by rw [grown', List.append_assoc], fetched.append fetched'⟩
      · -- nothing was visited, so the round has emptied the set and the next one ends the walk
        have emptied := between.clean.isEmpty fun id => Bool.eq_false_iff.2 fun waits => by
          obtain ⟨absent, before⟩ := left id waits
          exact absent ((steady.clean.mem_toList_iff id).2 before)
        cases rounds with
        | zero => omega
        | succ rounds =>
          unfold Course.finish
          rw [emptied, Bool.or_true, if_pos rfl]
          exact ⟨between, first, grown, fetched⟩

end Course

end Walk

namespace Graph

/-- The steps of a walk from a root before it goes to the nodes that it has collected. -/
def approach (g : Graph) (plan : WalkPlan) (n : Node) : Walk (List Step) :=
  Walk.Course.approach ⟨g, plan, true, Watcher.recorder⟩ (g.size + 2) n
    { watcher := [], visited := .withRoom g.size }

/-- A walk from a root along containment edges without cycles does not get lost, and in the end it
goes to collected nodes that have not been visited. -/
theorem steps_of_acyclic {g : Graph} (indexed : g.nodes.Indexed) (acyclic : g.Acyclic)
    {plan : WalkPlan} (uncrossed : ∀ kind, plan.crossEdges.contains kind = false)
    (remembers : plan.usedOnly = true → plan.remembers = true) {n : Node}
    (there : g.find? n.id = some n) :
    let r := g.steps plan (some n) 0
    r.progress = .going ∧ ∃ last, r.events = (g.approach plan n).events ++ last ∧
      g.Fetches plan (g.approach plan n).events last := by
  intro r
  let c : Walk.Course (List Step) := ⟨g, plan, true, Watcher.recorder⟩
  let start : Walk (List Step) := { watcher := [], visited := .withRoom g.size }
  have calm : c.Calm := ⟨rfl, rfl, indexed, acyclic, uncrossed⟩
  have steady : c.Steady start := by
    refine ⟨rfl, fun _ id absent => absurd absent List.not_mem_nil, fun id waits => ?_,
      IdSet.clean_empty⟩
    rw [IdSet.contains_empty] at waits
    cases waits
  have few : g.nodeList.length ≤ g.size := g.nodes.length_toList_le
  have enough : g.nodeList.length < g.size + 2 := by omega
  have reached : c.Steady (g.approach plan n) := steady.approach calm enough there
  have is : r = if plan.crossEdgeTree || plan.usedOnly then
      c.finish (g.size + 2) (g.size + 2) (g.approach plan n) else g.approach plan n :=
    c.run_some (g.size + 2) n start
  rw [is]
  split
  · next collects =>
    have knows : plan.remembers = true := by
      rw [Bool.or_eq_true] at collects
      rcases collects with tree | used
      · unfold WalkPlan.remembers
        rw [tree, Bool.or_true, Bool.true_or]
      · exact remembers used
    have fewer : (c.unvisited (g.approach plan n)).card ≤ g.nodeList.length :=
      c.card_unvisited_le _
    have many : (c.unvisited (g.approach plan n)).card + 2 ≤ g.size + 2 := by omega
    obtain ⟨ends, fetched⟩ := reached.finish calm knows enough many
    exact ⟨ends.going, fetched⟩
  · exact ⟨reached.going, [], (List.append_nil _).symm, .nil⟩

/-- In a graph whose containment edges have no cycles, a walk from a root along no other edges ends
by itself, whatever cycles the other edges form, if it remembers the nodes it has visited or is not
asked to put off special nodes. In the end it goes to collected nodes, and none of them has been
visited when it comes to it. Every visitor hears this until it has had enough. -/
theorem collected_new_after (language : Language) (history : List Operation)
    (acyclic : ((new language).after history).Acyclic) (plan : WalkPlan)
    (uncrossed : ∀ kind, plan.crossEdges.contains kind = false)
    (remembers : plan.usedOnly = true → plan.remembers = true) (id : NodeId) (n : Node)
    (there : ((new language).after history).find? id = some n) :
    let g := (new language).after history
    let first := (g.approach plan n).events
    ∃ last, g.Fetches plan first last ∧ ∀ (σ : Type) (v : Visitor σ) (states : List σ),
      ∃ run, g.EndsIn plan v states (some id) run ∧
        ∀ member ∈ run.watcher, member.1.2 <+: first ++ last ∧
          (member.2 = true → member.1.2 = first ++ last) := by
  intro g first
  have indexed : g.nodes.Indexed := indexed_after language history
  have own : n.id = id := indexed.id_eq there
  subst own
  obtain ⟨going, last, all, fetched⟩ := steps_of_acyclic indexed acyclic uncrossed remembers there
  have ends : (g.steps plan (some n) 0).progress ≠ .lost := by
    rw [going]
    decide
  have starts : ∀ {υ : Type} (watch : Watcher υ) (start : υ) (patience : Nat),
      g.walk plan watch start (some n.id) patience =
        .ok (g.walkFrom plan watch start (some n) patience) := by
    intro υ watch start patience
    have found : g.find? n.id = some n := there
    simp only [walk, node, found]
  refine ⟨last, fetched, fun σ v states => ?_⟩
  obtain ⟨endsIn, told⟩ := endsIn_of_found starts ends v states
  refine ⟨_, endsIn, fun member mem => ?_⟩
  rw [told] at mem
  obtain ⟨s, -, rfl⟩ := List.mem_map.1 mem
  have part := given_prefix v.hear s (g.steps plan (some n) 0).events
  exact ⟨part.trans (all ▸ List.prefix_rfl), fun watching => (given_of_watching watching).trans all⟩

/-- Containment has no cycles if what a node contains has higher ids. -/
theorem acyclic_of_ascending {g : Graph} (indexed : g.nodes.Indexed)
    (ascending : ∀ n ∈ g.nodeList, ∀ x ∈ n.children, n.id.index < x.index) : g.Acyclic := by
  have step : ∀ p x, x ∈ g.nodes.children p → p.index < x.index := by
    intro p x child
    unfold NodeTable.children at child
    split at child
    · next n found =>
      have own : n.id = p := indexed.id_eq found
      rw [← own]
      exact ascending n (mem_nodeList_of_find? found) x child
    · cases child
  intro id cycle
  have higher : ∀ {x : NodeId}, TransGen (fun p x => x ∈ g.nodes.children p) id x →
      id.index < x.index := by
    intro x chain
    induction chain with
    | single child => exact step _ _ child
    | tail _ child ih => exact ih.trans (step _ _ child)
  exact Nat.lt_irrefl _ (higher cycle)

/-- A history that makes two components, one of them below the other, and a class that belongs to
both. -/
def componentsHistory : List Operation :=
  [.component "A", .component "B", .createNode .plainClass,
    .addEdge .componentContains (madeId 1) (madeId 0),
    .addEdge .memberBelongsTo (madeId 2) (madeId 0),
    .addEdge .memberBelongsTo (madeId 2) (madeId 1)]

/-- Components that contain each other are visited once each, and the walk ends. -/
theorem collected_new_after_mutual :
    let g := (new .java).after
      (componentsHistory ++ [.addEdge .componentContains (madeId 0) (madeId 1)])
    let plan : WalkPlan := { usedOnly := true }
    g.Acyclic ∧ ∃ n last, g.find? (madeId 2) = some n ∧
      g.Fetches plan (g.approach plan n).events last ∧
      ∃ run, g.EndsIn plan .countdown [100, 3] (some (madeId 2)) run ∧
        (∀ member ∈ run.watcher, member.1.2 <+: (g.approach plan n).events ++ last) ∧
        (run.watcher.map fun member => Event.visits member.1.2) =
          [[madeId 2, madeId 0, madeId 1], [madeId 2]] := by
  intro g plan
  have facts : (g.find? (madeId 2)).isSome = true ∧
      (∀ n ∈ g.nodeList, ∀ x ∈ n.children, n.id.index < x.index) ∧
      (g.walkWith plan Visitor.countdown.recording.watch [(100, []), (3, [])] (some (madeId 2))
        0).toOption.map (fun run => run.watcher.map fun member => Event.visits member.1.2) =
        some [[madeId 2, madeId 0, madeId 1], [madeId 2]] := by
    decide +kernel
  obtain ⟨there, ascending, heard⟩ := facts
  have acyclic : g.Acyclic := acyclic_of_ascending (indexed_after .java _) ascending
  have uncrossed : ∀ kind, plan.crossEdges.contains kind = false := fun _ => rfl
  obtain ⟨n, found⟩ := Option.isSome_iff_exists.1 there
  obtain ⟨last, fetched, runs⟩ := collected_new_after .java _ acyclic plan uncrossed (fun _ => rfl)
    (madeId 2) n found
  obtain ⟨run, ends, told⟩ := runs Nat .countdown [100, 3]
  refine ⟨acyclic, n, last, found, fetched, run, ends, fun member mem => (told member mem).1, ?_⟩
  have recorded := ends.recorded 0
  dsimp only [List.map] at recorded
  rw [recorded] at heard
  exact Option.some.inj heard

/-- A walk that puts off special nodes without remembering what it has visited goes to one of them
twice: before it goes to collected nodes it has visited the class only. -/
theorem collected_again_forgetful :
    let g := (new .java).after componentsHistory
    let plan : WalkPlan := { special := false, usedOnly := true }
    g.Acyclic ∧ plan.crossEdges = .empty ∧
      ((g.find? (madeId 2)).map fun n => Event.visits (g.approach plan n).events) =
        some [madeId 2] ∧
      (g.walkWith plan Visitor.countdown.recording.watch [(100, [])] (some (madeId 2))
        0).toOption.map (fun run => run.watcher.map fun member => Event.visits member.1.2) =
        some [[madeId 2, madeId 0, madeId 1, madeId 0]] := by
  intro g plan
  have facts : (∀ n ∈ g.nodeList, ∀ x ∈ n.children, n.id.index < x.index) ∧
      ((g.find? (madeId 2)).map fun n => Event.visits (g.approach plan n).events) =
        some [madeId 2] ∧
      (g.walkWith plan Visitor.countdown.recording.watch [(100, [])] (some (madeId 2))
        0).toOption.map (fun run => run.watcher.map fun member => Event.visits member.1.2) =
        some [[madeId 2, madeId 0, madeId 1, madeId 0]] := by
    decide +kernel
  obtain ⟨ascending, before, heard⟩ := facts
  exact ⟨acyclic_of_ascending (indexed_after .java componentsHistory) ascending, rfl, before, heard⟩

end Graph

end CodeGraph
