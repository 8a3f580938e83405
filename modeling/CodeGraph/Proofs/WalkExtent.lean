import CodeGraph.Proofs.Loading
import CodeGraph.Proofs.WalkCoverage

/-!
# The exact extent of a safe walk

The plan of a walk tells which nodes have to be covered: those that it starts from, and with each
node the targets of some of its edges. A safe walk for a crew of which one member never stops
covers exactly the least such set of nodes. That it covers enough is `run_spec`; that it does not
cover more is `run_within`: a walk stays inside every set that contains its starts and is closed
under the edges it goes along. Main statement: `entered_isLeast`.
-/

set_option autoImplicit false

namespace CodeGraph

namespace Walk

namespace Course

variable {c : Course (List Node)} {S : Set NodeId} {w : Walk (List Node)}

/-- All nodes that a walk has entered or collected lie in a set. -/
structure Within (S : Set NodeId) (w : Walk (List Node)) : Prop where
  entered : ∀ n ∈ w.watcher, n.id ∈ S
  waiting : ∀ id, w.pending.contains id = true → id ∈ S
  clean : w.pending.Clean

/-- A set contains the targets of all edges that a walk goes along from its members. -/
def ClosedUnder (c : Course (List Node)) (S : Set NodeId) : Prop :=
  ∀ n, n.id ∈ S → c.graph.find? n.id = some n → ∀ e ∈ n.edges, ∀ t,
    c.graph.find? e.target = some t → c.plan.hides c.graph e.target = false →
    c.plan.follows c.rooted e.kind t = true ∨ c.plan.collects c.rooted e.kind t = true →
    e.target ∈ S

/-- A walk that is lost stays within. -/
theorem Within.lose (within : Within S w) : Within S w.lose := by
  unfold Walk.lose
  split
  · exact ⟨within.entered, within.waiting, within.clean⟩
  · exact within

/-- A walk that enters a node within stays within. -/
theorem Within.tell_enter (within : Within S w) {n : Node} (inside : n.id ∈ S) :
    Within S (w.tell Watcher.lister (.enter n)) := by
  unfold tell
  split
  · refine ⟨fun m mem => ?_, within.waiting, within.clean⟩
    rcases List.mem_append.1 mem with old | last
    · exact within.entered m old
    · rw [List.mem_singleton.1 last]
      exact inside
  · exact within

/-- A walk that collects a node within stays within. -/
theorem Within.collect (within : Within S w) {id : NodeId} (inside : id ∈ S) :
    Within S (w.collect id) := by
  unfold Walk.collect
  split
  · exact within
  · refine ⟨within.entered, fun other waits => ?_, within.clean.insert id⟩
    rw [IdSet.contains_insert, Bool.or_eq_true, beq_iff_eq] at waits
    rcases waits with rfl | before
    · exact inside
    · exact within.waiting other before

/-- Crossing an edge stays within, if entering does and the target is within wherever the plan goes.
-/
theorem cross_within (careful : c.Careful) {enter : Node → Walk (List Node) → Walk (List Node)}
    (entering : ∀ n w, c.graph.find? n.id = some n → n.id ∈ S → Within S w → Within S (enter n w))
    {e : Edge}
    (target : ∀ t, c.graph.find? e.target = some t → c.plan.hides c.graph e.target = false →
      c.plan.follows c.rooted e.kind t = true ∨ c.plan.collects c.rooted e.kind t = true →
      e.target ∈ S)
    {w : Walk (List Node)} (within : Within S w) : Within S (c.cross enter w e) := by
  unfold cross
  rw [careful.watch]
  split
  · exact within
  · next passes =>
    have shown : c.plan.hides c.graph e.target = false := by
      rw [Bool.or_eq_true, not_or] at passes
      exact Bool.eq_false_iff.2 passes.2
    split
    · exact within
    · next t found =>
      have own : t.id = e.target := careful.indexed.id_eq found
      have collected : Within S
          (if c.plan.collects c.rooted e.kind t then w.collect e.target else w) := by
        split
        · next collects => exact within.collect (target t found shown (Or.inr collects))
        · exact within
      simp only [tell_edge, tell_endEdge]
      split
      · next follows =>
        have inside := target t found shown (Or.inl follows)
        exact entering t _ (own.symm ▸ found) (own.symm ▸ inside) collected
      · exact collected

/-- Entering a node within stays within a set that is closed under where the plan goes. -/
theorem enter_within (careful : c.Careful) (closed : c.ClosedUnder S) (depth : Nat) {n : Node}
    (found : c.graph.find? n.id = some n) (inside : n.id ∈ S) {w : Walk (List Node)}
    (within : Within S w) : Within S (c.enter depth n w) := by
  induction depth generalizing n w with
  | zero => exact within.lose
  | succ depth ih =>
    unfold enter
    split
    · exact within
    · have marked : Within S (if c.plan.remembers then w.mark n.id else w) := by
        split
        · exact ⟨within.entered, within.waiting, within.clean⟩
        · exact within
      rw [careful.watch]
      simp only [tell_leave]
      -- every edge leads into the set again, so that the induction hypothesis applies behind it
      refine List.foldlRecOn n.edges _ (marked.tell_enter inside) fun v between e edge => ?_
      exact cross_within careful (fun m u there inS inner => ih there inS inner)
        (closed n inside found e edge) between

/-- Entering a collected node stays within. -/
theorem enterCollected_within (careful : c.Careful) (closed : c.ClosedUnder S) (limit : Nat)
    {id : NodeId} (inside : id ∈ S) {w : Walk (List Node)} (within : Within S w) :
    Within S (c.enterCollected limit w id) := by
  unfold enterCollected
  split
  · have dropped : Within S (w.drop id) := by
      refine ⟨within.entered, fun other waits => within.waiting other ?_, within.clean.erase id⟩
      unfold drop at waits
      rw [IdSet.contains_erase, Bool.and_eq_true] at waits
      exact waits.2
    simp only
    split
    · exact dropped
    · split
      · exact dropped
      · next n found =>
        have own : n.id = id := careful.indexed.id_eq found
        exact enter_within careful closed limit (own.symm ▸ found) (own.symm ▸ inside) dropped
  · exact within

/-- The pass over collected nodes stays within. -/
theorem finish_within (careful : c.Careful) (closed : c.ClosedUnder S) (limit rounds : Nat)
    {w : Walk (List Node)} (within : Within S w) : Within S (c.finish limit rounds w) := by
  induction rounds generalizing w with
  | zero => exact within.lose
  | succ rounds ih =>
    unfold finish
    split
    · exact within
    · -- whoever is entered in this round was waiting at its start, hence is in the set
      refine ih (List.foldlRecOn _ _ within fun v between id mem => ?_)
      have waits := (within.clean.mem_toList_iff id).1 mem
      exact enterCollected_within careful closed limit (within.waiting id waits) between

/-- A walk stays inside every set that contains its starts and is closed under the edges it goes
along. -/
theorem run_within (careful : c.Careful) (closed : c.ClosedUnder S) {limit : Nat}
    {root : Option Node} (found : ∀ n, root = some n → c.graph.find? n.id = some n)
    (origin : ∀ n, root = some n → n.id ∈ S) (starts : root = none → ∀ n ∈ c.starts, n.id ∈ S)
    (special : root.isSome = true → c.plan.special = true → c.plan.usedOnly = false →
      ∀ n ∈ c.graph.nodeList, n.kind.isSpecial = true → c.plan.hides c.graph n.id = false → n.id ∈ S)
    (within : Within S w) : Within S (c.run limit root w) := by
  have listed : ∀ n ∈ c.graph.nodeList, c.graph.find? n.id = some n :=
    fun n mem => (careful.indexed.mem_toList_iff n).1 mem
  unfold run
  split
  · refine List.foldlRecOn c.starts _ within fun v between n mem => ?_
    have found := listed n (List.mem_filter.1 mem).1
    exact enter_within careful closed limit found (starts rfl n mem) between
  · next n =>
    have entered := enter_within careful closed limit (found n rfl) (origin n rfl) within
    have reached : Within S (if c.plan.special && !c.plan.usedOnly then
        c.graph.nodeList.foldl (c.enterSpecial limit) (c.enter limit n w)
      else c.enter limit n w) := by
      split
      · next passes =>
        rw [Bool.and_eq_true, Bool.not_eq_true'] at passes
        refine List.foldlRecOn _ _ entered fun v between m mem => ?_
        unfold enterSpecial
        split
        · next enters =>
          rw [Bool.and_eq_true, Bool.and_eq_true, Bool.not_eq_true'] at enters
          have inside := special rfl passes.1 passes.2 m mem enters.1.1 enters.1.2
          exact enter_within careful closed limit (listed m mem) inside between
        · exact between
      · exact entered
    simp only
    split
    · exact finish_within careful closed limit limit reached
    · exact reached

end Course

end Walk

/-! ## The nodes that a plan asks for -/

namespace WalkPlan

/-- A node counts as hidden only if the plan does not look at hidden nodes, the filter of the graph
is in force, and the filter hides the node. -/
def Filtered (plan : WalkPlan) (g : Graph) (id : NodeId) : Prop :=
  plan.seesFiltered = false ∧ g.filterOn = true ∧ g.filter.state? id = some .filtered

/-- A plan hides the nodes that count as hidden. -/
theorem hides_iff (plan : WalkPlan) (g : Graph) (id : NodeId) :
    plan.hides g id = true ↔ plan.Filtered g id := by
  unfold hides Filtered Graph.isFiltered Filter.isFiltered
  rw [Bool.and_eq_true, Bool.and_eq_true, Bool.not_eq_true', decide_eq_true_eq]

/-- A plan shows the nodes that do not count as hidden. -/
theorem hides_eq_false_iff (plan : WalkPlan) (g : Graph) (id : NodeId) :
    plan.hides g id = false ↔ ¬ plan.Filtered g id := by
  rw [← hides_iff, Bool.not_eq_true]

/-- Whether a plan asks to go on from a node along an edge of a kind to a target. -/
def GoesAlong (plan : WalkPlan) (rooted : Bool) (kind : EdgeKind) (target : Node) : Prop :=
  kind.isContainment = true ∨ plan.crossEdges.contains kind = true ∨
    rooted = true ∧
      (plan.crossEdgeTree = true ∨ plan.usedOnly = true ∧ target.kind.isSpecial = true)

/-- A walk follows an edge at once or collects its target if and only if it goes along it. -/
theorem follows_or_collects_iff (plan : WalkPlan) (rooted : Bool) (kind : EdgeKind)
    (target : Node) :
    plan.follows rooted kind target = true ∨ plan.collects rooted kind target = true ↔
      plan.GoesAlong rooted kind target := by
  unfold follows collects GoesAlong
  cases kind.isContainment <;> cases plan.crossEdges.contains kind <;> cases rooted <;>
    cases plan.crossEdgeTree <;> cases plan.usedOnly <;> cases target.kind.isSpecial <;> decide

end WalkPlan

namespace Graph

/-- A set of ids that contains all nodes that a walk has to start from, and with each node the
targets of the edges that the plan goes along. -/
structure Covered (g : Graph) (plan : WalkPlan) (root : Option NodeId) (S : Set NodeId) :
    Prop where
  /-- The root is covered. -/
  origin : ∀ id, root = some id → id ∈ S
  /-- Without a root, every node without a parent that is not filtered is covered. -/
  starts : root = none → ∀ id n, g.find? id = some n → n.parent = none →
    ¬ plan.Filtered g id → id ∈ S
  /-- With a root, every special node that is not filtered is covered, if the plan asks for special
  nodes and not only for those in use. -/
  special : root.isSome = true → plan.special = true → plan.usedOnly = false →
    ∀ id n, g.find? id = some n → n.kind.isSpecial = true → ¬ plan.Filtered g id → id ∈ S
  /-- Existing targets that are not filtered are covered with the source of the edge. -/
  closed : ∀ id n, id ∈ S → g.find? id = some n → ∀ e ∈ n.edges, ∀ t,
    g.find? e.target = some t → ¬ plan.Filtered g e.target →
    plan.GoesAlong root.isSome e.kind t → e.target ∈ S

/-- What a walk has entered when it has come to its end covers what its plan asks for. -/
theorem covered_of_finished {c : Walk.Course (List Node)} (careful : c.Careful)
    {root : Option Node} (rooted : c.rooted = root.isSome) {w : Walk (List Node)}
    (finished : c.Finished root w) :
    c.graph.Covered c.plan (root.map Node.id) {id | w.Seen id} := by
  have indexed := careful.indexed
  refine ⟨?_, ?_, ?_, ?_⟩
  · intro id same
    obtain ⟨n, origin, rfl⟩ := Option.map_eq_some_iff.1 same
    exact finished.origin n origin
  · intro absent id n there parent shown
    have own : n.id = id := indexed.id_eq there
    have listed := (indexed.mem_toList_iff n).2 (own.symm ▸ there)
    rw [← WalkPlan.hides_eq_false_iff, ← own] at shown
    rw [← own]
    apply finished.starts (Option.map_eq_none_iff.1 absent)
    exact List.mem_filter.2 ⟨listed, by rw [parent, shown]; rfl⟩
  · intro present yes no id n there special shown
    have own : n.id = id := indexed.id_eq there
    have listed := (indexed.mem_toList_iff n).2 (own.symm ▸ there)
    rw [← WalkPlan.hides_eq_false_iff, ← own] at shown
    rw [Option.isSome_map] at present
    rw [← own]
    exact finished.special present yes no n listed special shown
  · intro id n seen there e edge t target shown goes
    obtain ⟨m, mem, own⟩ := List.mem_map.1 seen
    have here := finished.tidy.found m mem
    rw [own] at here
    have same : m = n := Option.some.inj (here.symm.trans there)
    rw [← WalkPlan.hides_eq_false_iff] at shown
    rw [Option.isSome_map, ← rooted, ← WalkPlan.follows_or_collects_iff] at goes
    exact finished.closed m mem e (same ▸ edge) t target shown goes

/-- A walk enters nothing outside a set that covers what its plan asks for. -/
theorem Covered.run_within {c : Walk.Course (List Node)} (careful : c.Careful)
    {root : Option Node} (rooted : c.rooted = root.isSome)
    (found : ∀ n, root = some n → c.graph.find? n.id = some n) {S : Set NodeId}
    (covered : c.graph.Covered c.plan (root.map Node.id) S) {w : Walk (List Node)}
    (within : Walk.Course.Within S w) (limit : Nat) :
    Walk.Course.Within S (c.run limit root w) := by
  have indexed := careful.indexed
  apply Walk.Course.run_within careful ?_ found ?_ ?_ ?_ within
  · intro n inside there e edge t target shown goes
    rw [WalkPlan.hides_eq_false_iff] at shown
    apply covered.closed n.id n inside there e edge t target shown
    rw [Option.isSome_map, ← rooted, ← WalkPlan.follows_or_collects_iff]
    exact goes
  · intro n origin
    apply covered.origin
    rw [origin]
    rfl
  · intro absent n start
    obtain ⟨listed, free⟩ := List.mem_filter.1 start
    rw [Bool.and_eq_true, Bool.not_eq_true', Option.isNone_iff_eq_none,
      WalkPlan.hides_eq_false_iff] at free
    exact covered.starts (by rw [absent]; rfl) n.id n ((indexed.mem_toList_iff n).1 listed) free.1
      free.2
  · intro present yes no n listed special shown
    rw [WalkPlan.hides_eq_false_iff] at shown
    rw [← Option.isSome_map (f := Node.id)] at present
    exact covered.special present yes no n.id n ((indexed.mem_toList_iff n).1 listed) special shown

/-- What a safe walk lists when it has come to its end: nodes of the graph, none twice, and exactly
those that the plan asks for. -/
structure ListsExactly (g : Graph) (plan : WalkPlan) (root : Option NodeId)
    (w : Walk (List Node)) : Prop where
  going : w.progress = .going
  found : ∀ n ∈ w.watcher, g.find? n.id = some n
  once : (w.watcher.map Node.id).Nodup
  least : IsLeast {S | g.Covered plan root S} {id | w.Seen id}

/-- A safe walk for a lister lists exactly the nodes that its plan asks for. -/
theorem listsExactly_walkFrom {g : Graph} (indexed : g.nodes.Indexed) {plan : WalkPlan}
    (safe : plan.safe = true) {root : Option Node}
    (found : ∀ n, root = some n → g.find? n.id = some n) (patience : Nat) :
    g.ListsExactly plan (root.map Node.id)
      (g.walkFrom plan Watcher.lister [] root patience) := by
  let c : Walk.Course (List Node) := ⟨g, plan, root.isSome, Watcher.lister⟩
  let start : Walk (List Node) := { watcher := [], visited := .withRoom g.size }
  have careful : c.Careful := ⟨rfl, safe, indexed⟩
  have nobody : ∀ id, start.pending.contains id = false := fun id => IdSet.contains_empty id
  have tidy : c.Tidy start := c.tidy_start g.size
  have enough : c.graph.nodeList.length + 2 ≤ g.size + 2 + patience := by
    have few : c.graph.nodeList.length ≤ g.size := g.nodes.length_toList_le
    omega
  have finished := Walk.Course.run_spec careful rfl found tidy rfl enough
  refine ⟨finished.tidy.going, finished.tidy.found, finished.tidy.once,
    covered_of_finished careful rfl finished, ?_⟩
  intro S covered id seen
  have within : Walk.Course.Within S start :=
    ⟨fun n absent => absurd absent List.not_mem_nil,
      fun id waits => absurd waits (by rw [nobody id]; decide), IdSet.clean_empty⟩
  have inside := Covered.run_within careful rfl found covered within (g.size + 2 + patience)
  obtain ⟨n, mem, rfl⟩ := List.mem_map.1 seen
  exact inside.entered n mem

/-- A walk for a crew whose members list what they are told of, of which one never stops: it lists
together what a mere lister would list. -/
theorem listed_walkFrom {σ : Type} (g : Graph) (plan : WalkPlan) (watch : Watcher σ)
    {states : List σ} (tireless : ∃ s ∈ states, watch.Tireless s) (root : Option Node)
    (patience : Nat) :
    Walk.Alike (Crew.Lists watch)
      (g.walkFrom plan (Crew.watch watch.listing) (Crew.ofList (states.map fun s => (s, [])))
        root patience)
      (g.walkFrom plan Watcher.lister [] root patience) := by
  apply walkFrom_alike (Crew.crew_agrees watch)
  obtain ⟨s, mem, never⟩ := tireless
  refine ⟨⟨((s, []), true), ?_, rfl, never, rfl⟩, ?_⟩
  · exact List.mem_map.2 ⟨(s, []), List.mem_map.2 ⟨s, mem, rfl⟩, rfl⟩
  · intro member among
    obtain ⟨state, listed, rfl⟩ := List.mem_map.1 among
    obtain ⟨t, -, rfl⟩ := List.mem_map.1 listed
    exact List.nil_subset _

/-- A walk from an existing root, or from none, starts. -/
theorem walk_eq_ok {g : Graph} (indexed : g.nodes.Indexed) {root : Option NodeId}
    (there : ∀ id, root = some id → ∃ n, g.find? id = some n) :
    ∃ origin : Option Node, origin.map Node.id = root ∧
      (∀ n, origin = some n → g.find? n.id = some n) ∧
      ∀ {τ : Type} (plan : WalkPlan) (watch : Watcher τ) (start : τ) (patience : Nat),
        g.walk plan watch start root patience = .ok (g.walkFrom plan watch start origin patience) := by
  cases root with
  | none =>
    refine ⟨none, rfl, fun n absent => ?_, fun _ _ _ _ => rfl⟩
    cases absent
  | some id =>
    obtain ⟨n, found⟩ := there id rfl
    have own : n.id = id := indexed.id_eq found
    refine ⟨some n, congrArg some own, fun m same => ?_, fun plan watch start patience => ?_⟩
    · cases same
      exact own.symm ▸ found
    · unfold walk node
      simp only [found]

/-- A safe walk through any graph, with cycles and missing targets or without, from an existing root
or from none, for a crew of machines of which one never stops, comes to its end. The nodes that the
members are told to enter, which they list without a change to the walk, are exactly the least set
that covers what the plan asks for. -/
theorem entered_isLeast {σ : Type} (language : Language) (history : List Operation)
    (plan : WalkPlan) (safe : plan.safe = true) (watch : Watcher σ) (states : List σ)
    (tireless : ∃ s ∈ states, watch.Tireless s) (root : Option NodeId)
    (there : ∀ id, root = some id → ∃ n, ((new language).after history).find? id = some n)
    (patience : Nat) :
    let g := (new language).after history
    ∃ walk listed, g.walkWith plan watch states root patience = .ok walk ∧
      walk.progress = .going ∧
      g.walkWith plan watch.listing (states.map fun s => (s, [])) root patience = .ok listed ∧
      walk.watcher = Crew.forget listed.watcher ∧
      IsLeast {S | g.Covered plan root S}
        {id | ∃ member ∈ listed.watcher, ∃ n ∈ member.1.2, n.id = id} := by
  intro g
  have indexed : g.nodes.Indexed := indexed_after language history
  obtain ⟨origin, rfl, found, starts⟩ := walk_eq_ok indexed there
  have plain : Crew.ofList states = Crew.forget (Crew.ofList (states.map fun s => (s, []))) := by
    unfold Crew.ofList Crew.forget
    rw [List.map_map, List.map_map]
    rfl
  have same := g.walkFrom_alike (Crew.listing_agrees watch) plan plain origin patience
  have listed := g.listed_walkFrom plan watch tireless origin patience
  have exactly := listsExactly_walkFrom indexed safe found patience
  refine ⟨_, _, starts plan _ _ patience, ?_, starts plan _ _ patience, same.watcher, ?_⟩
  · rw [same.progress, listed.progress, exactly.going]
  · -- the one who never stops has listed all, and the others nothing else
    have union : {id | ∃ member ∈ (g.walkFrom plan (Crew.watch watch.listing)
          (Crew.ofList (states.map fun s => (s, []))) origin patience).watcher,
        ∃ n ∈ member.1.2, n.id = id} =
        {id | (g.walkFrom plan Watcher.lister [] origin patience).Seen id} := by
      ext id
      constructor
      · rintro ⟨member, among, n, mem, rfl⟩
        exact List.mem_map_of_mem (listed.watcher.others member among mem)
      · intro seen
        obtain ⟨n, mem, rfl⟩ := List.mem_map.1 seen
        obtain ⟨member, among, -, -, all⟩ := listed.watcher.tireless
        exact ⟨member, among, n, all ▸ mem, rfl⟩
    rw [union]
    exact exactly.least

/-- A history that makes two packages contain each other. -/
def cyclicHistory : List Operation :=
  [.createNode .package, .createNode .package,
    .addEdge .scopeHasMember (madeId 0) (madeId 1),
    .addEdge .scopeHasMember (madeId 1) (madeId 0)]

/-- A safe walk around a cycle ends, and covers exactly what is asked for. -/
theorem entered_isLeast_cycle :
    ∃ listed, ((new .java).after cyclicHistory).walkWith { safe := true }
        (Watcher.listing fun (s : Unit) _ => (s, true)) [((), [])] (some (madeId 0)) 0 =
          .ok listed ∧
      IsLeast {S | ((new .java).after cyclicHistory).Covered { safe := true }
          (some (madeId 0)) S}
        {id | ∃ member ∈ listed.watcher, ∃ n ∈ member.1.2, n.id = id} := by
  have there : ((new .java).after cyclicHistory).nodes.contains (madeId 0) = true := by
    decide +kernel
  obtain ⟨walk, listed, -, -, started, -, least⟩ :=
    entered_isLeast .java cyclicHistory { safe := true } rfl (fun (s : Unit) _ => (s, true)) [()]
      ⟨(), List.mem_singleton.2 rfl, fun _ _ => rfl⟩ (some (madeId 0))
      (fun id same => Option.isSome_iff_exists.1 (Option.some.inj same ▸ there)) 0
  exact ⟨listed, started, least⟩

end Graph

end CodeGraph
