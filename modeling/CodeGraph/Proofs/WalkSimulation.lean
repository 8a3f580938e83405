import CodeGraph.Walk.Run

/-!
# Walks do not depend on who watches

A walk asks the one who watches only whether to go on, and the graph only for its nodes and for which
of them are hidden. So if two machines answer alike as long as their states are related, then their
walks through the same nodes go the same way and end in related states. Main statements:
`Course.Parallel.run_alike`, `walkFrom_parallel` and `walkFrom_alike`. Two uses follow: a machine that
also lists the nodes it is told of sees the same walk as without the list (`listing_agrees`), and a
crew of which one member never stops sees the same walk as a machine that only lists (`crew_agrees`).
-/

set_option autoImplicit false

namespace CodeGraph

/-- Two machines in related states answer alike and stay in related states. -/
def Agrees {τ υ : Type} (R : τ → υ → Prop) (watch : Watcher τ) (watch' : Watcher υ) : Prop :=
  ∀ s t step, R s t → R (watch s step).1 (watch' t step).1 ∧ (watch s step).2 = (watch' t step).2

namespace Walk

variable {τ υ : Type} {R : τ → υ → Prop}

/-- Two walks at the same place, watched by machines in related states. -/
structure Alike (R : τ → υ → Prop) (w : Walk τ) (v : Walk υ) : Prop where
  watcher : R w.watcher v.watcher
  visited : w.visited = v.visited
  pending : w.pending = v.pending
  progress : w.progress = v.progress

namespace Alike

variable {w : Walk τ} {v : Walk υ}

/-- A choice that is made alike keeps walks alike. -/
theorem ite {b b' : Bool} (same : b = b') {w₁ w₂ : Walk τ} {v₁ v₂ : Walk υ}
    (yes : Alike R w₁ v₁) (no : Alike R w₂ v₂) :
    Alike R (if b then w₁ else w₂) (if b' then v₁ else v₂) := by
  subst same
  cases b with
  | true => exact yes
  | false => exact no

/-- Walks that are alike are both going or both not. -/
theorem isGoing (alike : Alike R w v) : w.isGoing = v.isGoing := by
  unfold Walk.isGoing
  rw [alike.progress]

/-- Walks that are alike stay so when both are told a step. -/
theorem tell {watch : Watcher τ} {watch' : Watcher υ} (agrees : Agrees R watch watch')
    (alike : Alike R w v) (step : Step) : Alike R (w.tell watch step) (v.tell watch' step) := by
  obtain ⟨related, same⟩ := agrees w.watcher v.watcher step alike.watcher
  unfold Walk.tell
  rw [alike.isGoing]
  by_cases going : v.isGoing = true
  · rw [if_pos going, if_pos going]
    generalize watch w.watcher step = left at related same
    generalize watch' v.watcher step = right at related same
    obtain ⟨s, more⟩ := left
    obtain ⟨t, more'⟩ := right
    cases same
    cases more with
    | true => exact ⟨related, alike.visited, alike.pending, alike.progress⟩
    | false => exact ⟨related, alike.visited, alike.pending, rfl⟩
  · rw [if_neg going, if_neg going]
    exact alike

/-- Walks that are alike stay so when both mark a node. -/
theorem mark (alike : Alike R w v) (id : NodeId) : Alike R (w.mark id) (v.mark id) :=
  ⟨alike.watcher, congrArg (·.insert id) alike.visited, alike.pending, alike.progress⟩

/-- Walks that are alike stay so when both collect a node. -/
theorem collect (alike : Alike R w v) (id : NodeId) : Alike R (w.collect id) (v.collect id) := by
  refine Alike.ite (congrArg (·.contains id) alike.visited) alike ?_
  exact ⟨alike.watcher, alike.visited, congrArg (·.insert id) alike.pending, alike.progress⟩

/-- Walks that are alike stay so when both drop a node. -/
theorem drop (alike : Alike R w v) (id : NodeId) : Alike R (w.drop id) (v.drop id) :=
  ⟨alike.watcher, alike.visited, congrArg (·.erase id) alike.pending, alike.progress⟩

/-- Walks that are alike stay so when both are lost. -/
theorem lose (alike : Alike R w v) : Alike R w.lose v.lose := by
  refine Alike.ite alike.isGoing ?_ alike
  exact ⟨alike.watcher, alike.visited, alike.pending, rfl⟩

end Alike

namespace Course

/-- The same course, watched by someone else. -/
def watchedBy (c : Course τ) (watch' : Watcher υ) : Course υ :=
  ⟨c.graph, c.plan, c.rooted, watch'⟩

/-- Two courses through the same nodes, of which the same are hidden, watched by machines that answer
alike. -/
structure Parallel (R : τ → υ → Prop) (c : Course τ) (c' : Course υ) : Prop where
  nodes : c.graph.nodes = c'.graph.nodes
  plan : c.plan = c'.plan
  rooted : c.rooted = c'.rooted
  hides : ∀ id, c.plan.hides c.graph id = c'.plan.hides c'.graph id
  agrees : Agrees R c.watch c'.watch

namespace Parallel

variable {c : Course τ} {c' : Course υ} (parallel : Parallel R c c')

include parallel

/-- Parallel courses find the same nodes. -/
theorem find? (id : NodeId) : c.graph.find? id = c'.graph.find? id :=
  congrArg (·.find? id) parallel.nodes

/-- Parallel courses have the same nodes in the same order. -/
theorem nodeList : c.graph.nodeList = c'.graph.nodeList :=
  congrArg NodeTable.toList parallel.nodes

/-- Parallel courses start from the same nodes. -/
theorem starts : c.starts = c'.starts := by
  unfold Course.starts
  simp only [parallel.nodeList, parallel.hides]

/-- Parallel courses cross an edge alike, if they enter nodes alike. -/
theorem cross_alike {enter : Node → Walk τ → Walk τ} {enter' : Node → Walk υ → Walk υ}
    (entering : ∀ n w v, Alike R w v → Alike R (enter n w) (enter' n v)) {w : Walk τ} {v : Walk υ}
    (alike : Alike R w v) (e : Edge) : Alike R (c.cross enter w e) (c'.cross enter' v e) := by
  have same : (!w.isGoing || c.plan.hides c.graph e.target) =
      (!v.isGoing || c'.plan.hides c'.graph e.target) := by
    rw [alike.isGoing, parallel.hides]
  refine Alike.ite same alike ?_
  rw [parallel.find? e.target]
  cases c'.graph.find? e.target with
  | none => exact alike
  | some target =>
    have collects : c.plan.collects c.rooted e.kind target =
        c'.plan.collects c'.rooted e.kind target := by
      rw [parallel.plan, parallel.rooted]
    have follows : c.plan.follows c.rooted e.kind target =
        c'.plan.follows c'.rooted e.kind target := by
      rw [parallel.plan, parallel.rooted]
    have collected := Alike.ite collects (alike.collect e.target) alike
    have told := collected.tell parallel.agrees (.edge e)
    exact (Alike.ite follows (entering target _ _ told) told).tell parallel.agrees (.endEdge e)

/-- Parallel courses enter a node alike. -/
theorem enter_alike (depth : Nat) (n : Node) {w : Walk τ} {v : Walk υ} (alike : Alike R w v) :
    Alike R (c.enter depth n w) (c'.enter depth n v) := by
  induction depth generalizing n w v with
  | zero => exact alike.lose
  | succ depth ih =>
    have same : (!w.isGoing || (c.plan.safe && w.visited.contains n.id)) =
        (!v.isGoing || (c'.plan.safe && v.visited.contains n.id)) := by
      rw [alike.isGoing, alike.visited, parallel.plan]
    have remembers : c.plan.remembers = c'.plan.remembers := congrArg _ parallel.plan
    -- nothing but the answers of the machines could tell the two walks apart from here on
    have marked := Alike.ite remembers (alike.mark n.id) alike
    have told := marked.tell parallel.agrees (.enter n)
    have crossed := List.foldl_rel (l := n.edges) told fun e _ _ _ between =>
      parallel.cross_alike (fun m _ _ inner => ih m inner) between e
    exact Alike.ite same alike (crossed.tell parallel.agrees (.leave n))

/-- Parallel courses enter a special node alike. -/
theorem enterSpecial_alike (limit : Nat) (n : Node) {w : Walk τ} {v : Walk υ}
    (alike : Alike R w v) : Alike R (c.enterSpecial limit w n) (c'.enterSpecial limit v n) := by
  have same : (n.kind.isSpecial && !c.plan.hides c.graph n.id && !w.visited.contains n.id) =
      (n.kind.isSpecial && !c'.plan.hides c'.graph n.id && !v.visited.contains n.id) := by
    rw [alike.visited, parallel.hides]
  exact Alike.ite same (parallel.enter_alike limit n alike) alike

/-- Parallel courses enter a collected node alike. -/
theorem enterCollected_alike (limit : Nat) (id : NodeId) {w : Walk τ} {v : Walk υ}
    (alike : Alike R w v) : Alike R (c.enterCollected limit w id) (c'.enterCollected limit v id) := by
  have dropped := alike.drop id
  have same : ((w.drop id).visited.contains id || c.plan.hides c.graph id) =
      ((v.drop id).visited.contains id || c'.plan.hides c'.graph id) := by
    rw [dropped.visited, parallel.hides]
  refine Alike.ite alike.isGoing (Alike.ite same dropped ?_) alike
  rw [parallel.find? id]
  cases c'.graph.find? id with
  | none => exact dropped
  | some n => exact parallel.enter_alike limit n dropped

/-- Parallel courses go over collected nodes alike. -/
theorem finish_alike (limit rounds : Nat) {w : Walk τ} {v : Walk υ} (alike : Alike R w v) :
    Alike R (c.finish limit rounds w) (c'.finish limit rounds v) := by
  induction rounds generalizing w v with
  | zero => exact alike.lose
  | succ rounds ih =>
    have same : (!w.isGoing || w.pending.isEmpty) = (!v.isGoing || v.pending.isEmpty) := by
      rw [alike.isGoing, alike.pending]
    have round : Alike R (w.pending.toList.foldl (c.enterCollected limit) w)
        (v.pending.toList.foldl (c'.enterCollected limit) v) := by
      rw [← alike.pending]
      exact List.foldl_rel alike fun id _ _ _ => parallel.enterCollected_alike limit id
    exact Alike.ite same alike (ih round)

/-- Walks along parallel courses go the same way. -/
theorem run_alike (limit : Nat) (root : Option Node) {w : Walk τ} {v : Walk υ}
    (alike : Alike R w v) : Alike R (c.run limit root w) (c'.run limit root v) := by
  cases root with
  | none =>
    unfold run enterAll
    rw [parallel.starts]
    exact List.foldl_rel alike fun n _ _ _ => parallel.enter_alike limit n
  | some n =>
    have entered := parallel.enter_alike limit n alike
    have special : Alike R (c.graph.nodeList.foldl (c.enterSpecial limit) (c.enter limit n w))
        (c'.graph.nodeList.foldl (c'.enterSpecial limit) (c'.enter limit n v)) := by
      rw [parallel.nodeList]
      exact List.foldl_rel entered fun m _ _ _ => parallel.enterSpecial_alike limit m
    have visits : (c.plan.special && !c.plan.usedOnly) = (c'.plan.special && !c'.plan.usedOnly) := by
      rw [parallel.plan]
    have finishes : (c.plan.crossEdgeTree || c.plan.usedOnly) =
        (c'.plan.crossEdgeTree || c'.plan.usedOnly) := by
      rw [parallel.plan]
    have reached := Alike.ite visits special entered
    exact Alike.ite finishes (parallel.finish_alike limit limit reached) reached

end Parallel

end Course

end Walk

namespace Graph

variable {τ υ : Type} {R : τ → υ → Prop} {watch : Watcher τ} {watch' : Watcher υ}

/-- Walks through two graphs with the same nodes, of which the same are hidden, go the same way for
machines that answer alike. -/
theorem walkFrom_parallel (agrees : Agrees R watch watch') {g h : Graph} (nodes : g.nodes = h.nodes)
    {plan : WalkPlan} (hides : ∀ id, plan.hides g id = plan.hides h id) {start : τ} {start' : υ}
    (related : R start start') (root : Option Node) (patience : Nat) :
    Walk.Alike R (g.walkFrom plan watch start root patience)
      (h.walkFrom plan watch' start' root patience) := by
  have size : g.size = h.size := congrArg NodeTable.size nodes
  have parallel : Walk.Course.Parallel R ⟨g, plan, root.isSome, watch⟩
      ⟨h, plan, root.isSome, watch'⟩ := ⟨nodes, rfl, rfl, hides, agrees⟩
  unfold walkFrom
  rw [size]
  exact parallel.run_alike _ root ⟨related, rfl, rfl, rfl⟩

/-- Walks through one graph go the same way for machines that answer alike. -/
theorem walkFrom_alike (agrees : Agrees R watch watch') (g : Graph) (plan : WalkPlan) {start : τ}
    {start' : υ} (related : R start start') (root : Option Node) (patience : Nat) :
    Walk.Alike R (g.walkFrom plan watch start root patience)
      (g.walkFrom plan watch' start' root patience) :=
  walkFrom_parallel agrees rfl (fun _ => rfl) related root patience

end Graph

namespace Watcher

variable {σ : Type}

/-- Lists the nodes that are entered, and always goes on. -/
def lister : Watcher (List Node)
  | nodes, .enter n => (nodes ++ [n], true)
  | nodes, _ => (nodes, true)

/-- The same machine, with a list of the nodes that it was told of. -/
def listing (watch : Watcher σ) : Watcher (σ × List Node) := fun s step =>
  (((watch s.1 step).1, (lister s.2 step).1), (watch s.1 step).2)

/-- From a state on, a machine wants to see more whatever it is told. -/
def Tireless (watch : Watcher σ) (s : σ) : Prop :=
  ∀ (steps : List Step) (step : Step),
    (watch (steps.foldl (fun s step => (watch s step).1) s) step).2 = true

variable {watch : Watcher σ} {s : σ}

/-- A tireless machine wants to see more after any step. -/
theorem Tireless.wants (tireless : watch.Tireless s) (step : Step) : (watch s step).2 = true :=
  tireless [] step

/-- A tireless machine stays so after any step. -/
theorem Tireless.next (tireless : watch.Tireless s) (step : Step) :
    watch.Tireless (watch s step).1 :=
  fun steps last => tireless (step :: steps) last

/-- The lister always goes on. -/
theorem snd_lister (nodes : List Node) (step : Step) : (lister nodes step).2 = true := by
  cases step <;> rfl

/-- The lister forgets no node. -/
theorem subset_lister (nodes : List Node) (step : Step) : nodes ⊆ (lister nodes step).1 := by
  cases step with
  | enter n => exact List.subset_append_left nodes [n]
  | edge e | endEdge e | leave n => exact List.Subset.refl nodes

/-- A lister that has listed more goes on to list more. -/
theorem lister_mono {few many : List Node} (fewer : few ⊆ many) (step : Step) :
    (lister few step).1 ⊆ (lister many step).1 := by
  cases step with
  | enter n =>
    intro m mem
    rcases List.mem_append.1 mem with old | new
    · exact List.mem_append_left [n] (fewer old)
    · exact List.mem_append_right many new
  | edge e | endEdge e | leave n => exact fewer

end Watcher

namespace Crew

variable {σ : Type} {watch : Watcher σ}

/-- A crew without the lists of its members. -/
def forget (crew : Crew (σ × List Node)) : Crew σ :=
  crew.map fun member => (member.1.1, member.2)

/-- A crew whose members list the nodes they are told of sees the same walk as without lists. -/
theorem listing_agrees (watch : Watcher σ) :
    Agrees (fun plain listed => plain = forget listed) (Crew.watch watch)
      (Crew.watch watch.listing) := by
  rintro _ listed step rfl
  have next : ((forget listed).map fun member => if member.2 then watch member.1 step else member) =
      forget (listed.map fun member =>
        if member.2 then watch.listing member.1 step else member) := by
    unfold forget
    rw [List.map_map, List.map_map]
    apply List.map_congr_left
    rintro ⟨⟨s, nodes⟩, watching⟩ _
    cases watching <;> rfl
  refine ⟨next, ?_⟩
  change isWatching _ = isWatching _
  rw [next]
  unfold isWatching forget
  rw [List.any_map]
  rfl

/-- Someone in the crew never stops and has listed `nodes`, and nobody has listed more. -/
structure Lists (watch : Watcher σ) (crew : Crew (σ × List Node)) (nodes : List Node) : Prop where
  /-- The member that never stops has listed all. -/
  tireless : ∃ member ∈ crew, member.2 = true ∧ watch.Tireless member.1.1 ∧ member.1.2 = nodes
  /-- Everyone else has listed some. -/
  others : ∀ member ∈ crew, member.1.2 ⊆ nodes

/-- A crew of which one member never stops sees the walk that a mere lister sees. -/
theorem crew_agrees (watch : Watcher σ) :
    Agrees (Lists watch) (Crew.watch watch.listing) Watcher.lister := by
  intro crew nodes step lists
  obtain ⟨⟨⟨s, listed⟩, watching⟩, mem, still, tireless, all⟩ := lists.tireless
  simp only at still tireless all
  subst still all
  have wants := tireless.wants step
  have told : watch.listing (s, listed) step ∈ crew.map fun member =>
      if member.2 then watch.listing member.1 step else member :=
    List.mem_map.2 ⟨((s, listed), true), mem, rfl⟩
  refine ⟨⟨⟨_, told, wants, tireless.next step, rfl⟩, ?_⟩, ?_⟩
  · rintro member next
    obtain ⟨⟨⟨t, fewer⟩, watching⟩, before, rfl⟩ := List.mem_map.1 next
    have some := lists.others _ before
    cases watching with
    | true => exact Watcher.lister_mono some step
    | false => exact List.Subset.trans some (Watcher.subset_lister listed step)
  · rw [Watcher.snd_lister]
    exact List.any_eq_true.2 ⟨_, told, wants⟩

end Crew

end CodeGraph
