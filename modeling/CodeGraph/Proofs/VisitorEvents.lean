import CodeGraph.Proofs.WalkExtent
import CodeGraph.Proofs.WalkSteps

/-!
# What visitors hear

A visitor is told of a step in one or two events: when a node is reached it is visited and the walk
turns to its edges, and when a node is left the walk turns back and the visit ends. A visitor that
has had enough at an event hears nothing after it. Visitors that watch one walk together do not
influence each other: everyone hears what it would hear alone, or beside any of the others
(`Graph.visitors_independent`).
-/

set_option autoImplicit false

namespace CodeGraph

variable {σ α : Type}

/-- What a visitor is told. -/
inductive Event
  /-- A node is reached. -/
  | visit (n : Node)
  /-- The walk turns from a node to its edges. -/
  | descend
  /-- An edge is reached. -/
  | edge (e : Edge)
  /-- An edge has been dealt with. -/
  | endEdge (e : Edge)
  /-- The walk turns back from the edges of a node. -/
  | ascend
  /-- A node has been dealt with. -/
  | visitEnd (n : Node)
deriving DecidableEq, Repr

/-- The events of a step. -/
def Step.events : Step → List Event
  | .enter n => [.visit n, .descend]
  | .edge e => [.edge e]
  | .endEdge e => [.endEdge e]
  | .leave n => [.ascend, .visitEnd n]

/-- The events of several steps. -/
def Step.allEvents (steps : List Step) : List Event :=
  steps.flatMap Step.events

/-- What a machine has been given when it refuses something, or else everything. -/
def given (m : σ → α → σ × Bool) : σ → List α → List α
  | _, [] => []
  | s, x :: xs =>
    x :: match m s x with
      | (s, true) => given m s xs
      | (_, false) => []

section Given

variable (m : σ → α → σ × Bool)

/-- A machine is given things from the beginning on. -/
theorem given_prefix (s : σ) (xs : List α) : given m s xs <+: xs := by
  induction xs generalizing s with
  | nil => exact List.prefix_refl _
  | cons x xs ih =>
    unfold given
    rw [List.cons_prefix_cons]
    refine ⟨rfl, ?_⟩
    split
    · exact ih _
    · exact List.nil_prefix

/-- Who refuses nothing is given everything. -/
theorem given_of_taken {s : σ} {xs : List α} (taken : (feed m s xs).2 = true) :
    given m s xs = xs := by
  induction xs generalizing s with
  | nil => rfl
  | cons x xs ih =>
    rcases answer : m s x with ⟨t, more⟩
    cases more with
    | true =>
      rw [feed_cons_of_taken m answer] at taken
      simp only [given, answer, ih taken]
    | false =>
      rw [feed_cons_of_refused m answer] at taken
      cases taken

/-- What a machine is not given makes no difference to it. -/
theorem feed_given (s : σ) (xs : List α) : feed m s (given m s xs) = feed m s xs := by
  induction xs generalizing s with
  | nil => rfl
  | cons x xs ih =>
    rcases answer : m s x with ⟨t, more⟩
    cases more with
    | true => simp only [given, feed, answer, ih]
    | false => simp only [given, feed, answer]

/-- Nothing that a machine is given is refused, except the last thing. -/
theorem feed_of_prefix_given {s : σ} {xs front : List α} (before : front <+: given m s xs)
    (proper : front ≠ given m s xs) : (feed m s front).2 = true := by
  induction xs generalizing s front with
  | nil => exact absurd (List.prefix_nil.1 before) proper
  | cons x xs ih =>
    cases front with
    | nil => rfl
    | cons y front =>
      unfold given at before proper
      obtain ⟨rfl, before⟩ := List.cons_prefix_cons.1 before
      have proper := fun same => proper (congrArg (List.cons y) same)
      rcases answer : m s y with ⟨t, more⟩
      cases more with
      | true =>
        simp only [answer] at before proper
        rw [feed_cons_of_taken m answer]
        exact ih before proper
      | false =>
        simp only [answer] at before proper
        exact absurd (List.prefix_nil.1 before) proper

end Given

namespace Visitor

variable (v : Visitor σ)

/-- How a visitor takes an event. It cannot refuse the turns of the walk. -/
def hear : σ → Event → σ × Bool
  | s, .visit n => v.visit s n
  | s, .descend => (v.descend s, true)
  | s, .edge e => v.edge s e
  | s, .endEdge e => v.endEdge s e
  | s, .ascend => (v.ascend s, true)
  | s, .visitEnd n => v.visitEnd s n

/-- The same visitor, with a list of the events that it was told. -/
def recording : Visitor (σ × List Event) where
  visit s n := (((v.visit s.1 n).1, s.2 ++ [.visit n]), (v.visit s.1 n).2)
  descend s := (v.descend s.1, s.2 ++ [.descend])
  edge s e := (((v.edge s.1 e).1, s.2 ++ [.edge e]), (v.edge s.1 e).2)
  endEdge s e := (((v.endEdge s.1 e).1, s.2 ++ [.endEdge e]), (v.endEdge s.1 e).2)
  ascend s := (v.ascend s.1, s.2 ++ [.ascend])
  visitEnd s n := (((v.visitEnd s.1 n).1, s.2 ++ [.visitEnd n]), (v.visitEnd s.1 n).2)

/-- A visitor takes a step event by event. -/
theorem watch_eq_feed (s : σ) (step : Step) : v.watch s step = feed v.hear s step.events := by
  cases step with
  | enter n =>
    rcases answer : v.visit s n with ⟨t, more⟩
    cases more <;> simp [watch, Step.events, feed, hear, answer]
  | edge e =>
    rcases answer : v.edge s e with ⟨t, more⟩
    cases more <;> simp [watch, Step.events, feed, hear, answer]
  | endEdge e =>
    rcases answer : v.endEdge s e with ⟨t, more⟩
    cases more <;> simp [watch, Step.events, feed, hear, answer]
  | leave n =>
    rcases answer : v.visitEnd (v.ascend s) n with ⟨t, more⟩
    cases more <;> simp [watch, Step.events, feed, hear, answer]

/-- A visitor takes a list of steps event by event. -/
theorem feed_watch (s : σ) (steps : List Step) :
    feed v.watch s steps = feed v.hear s (Step.allEvents steps) := by
  induction steps generalizing s with
  | nil => rfl
  | cons step steps ih =>
    have first := v.watch_eq_feed s step
    have split : Step.allEvents (step :: steps) = step.events ++ Step.allEvents steps := rfl
    rcases answer : v.watch s step with ⟨t, more⟩
    rw [answer] at first
    cases more with
    | true =>
      rw [feed_cons_of_taken _ answer, split, feed_append_of_taken _ first.symm, ih]
    | false =>
      rw [feed_cons_of_refused _ answer, split, feed_append_of_refused _ first.symm]

/-- A recording visitor writes an event down and goes on as the visitor does. -/
theorem hear_recording (s : σ) (heard : List Event) (event : Event) :
    v.recording.hear (s, heard) event =
      (((v.hear s event).1, heard ++ [event]), (v.hear s event).2) := by
  cases event <;> rfl

/-- A visitor with a list writes down what it is given, and is otherwise as before. -/
theorem feed_recording (s : σ) (heard events : List Event) :
    feed v.recording.hear (s, heard) events =
      (((feed v.hear s events).1, heard ++ given v.hear s events), (feed v.hear s events).2) := by
  induction events generalizing s heard with
  | nil => simp [feed, given]
  | cons event events ih =>
    have recorded := v.hear_recording s heard event
    rcases answer : v.hear s event with ⟨t, more⟩
    rw [answer] at recorded
    cases more with
    | true =>
      rw [feed_cons_of_taken _ recorded, feed_cons_of_taken _ answer, ih]
      simp [given, answer]
    | false =>
      rw [feed_cons_of_refused _ recorded, feed_cons_of_refused _ answer]
      simp [given, answer]

/-- What a visitor with an empty list makes of a list of steps. -/
theorem feed_recording_watch (s : σ) (steps : List Step) :
    feed v.recording.watch (s, []) steps =
      (((feed v.watch s steps).1, given v.hear s (Step.allEvents steps)),
        (feed v.watch s steps).2) := by
  rw [feed_watch, feed_recording, v.feed_watch s]
  rfl

/-- A visitor that has had enough after a number of events, turns apart. -/
def countdown : Visitor Nat where
  visit k _ := (k - 1, decide (1 < k))
  edge k _ := (k - 1, decide (1 < k))
  endEdge k _ := (k - 1, decide (1 < k))
  visitEnd k _ := (k - 1, decide (1 < k))

end Visitor

namespace Graph

/-- Whoever watches, a walk starts in the same place. -/
theorem exists_origin {τ : Type} {g : Graph} {plan : WalkPlan} {watch : Watcher τ} {start : τ}
    {root : Option NodeId} {patience : Nat} {w : Walk τ}
    (ran : g.walk plan watch start root patience = .ok w) :
    ∃ origin : Option Node, (∀ n, origin = some n → ∃ id, g.find? id = some n) ∧
      ∀ {υ : Type} (watch : Watcher υ) (start : υ),
        g.walk plan watch start root patience =
          .ok (g.walkFrom plan watch start origin patience) := by
  cases root with
  | none => exact ⟨none, fun n none => (Option.some_ne_none n none.symm).elim, fun _ _ => rfl⟩
  | some id =>
    cases found : g.find? id with
    | none =>
      simp only [walk, node, found] at ran
      cases ran
    | some n =>
      refine ⟨some n, fun m same => ⟨id, Option.some.inj same ▸ found⟩, fun watch start => ?_⟩
      simp only [walk, node, found]

/-- What visitors with lists see of a walk. -/
theorem walkFrom_recording (g : Graph) (plan : WalkPlan) (v : Visitor σ) (states : List σ)
    (root : Option Node) (patience : Nat) :
    let r := g.steps plan root patience
    let run := g.walkFrom plan (Crew.watch v.recording.watch)
      (Crew.ofList (states.map fun s => (s, []))) root patience
    (run.watcher = states.map fun s => (((feed v.watch s r.watcher).1,
      given v.hear s (Step.allEvents r.watcher)), (feed v.watch s r.watcher).2)) ∧
    (states ≠ [] → run.progress =
      if states.any fun s => (feed v.watch s r.watcher).2 then r.progress else .stopped) := by
  intro r run
  obtain ⟨watchers, progress⟩ :=
    g.walkFrom_crew plan v.recording.watch (states.map fun s => (s, [])) root patience
  refine ⟨?_, fun nonempty => ?_⟩
  · rw [watchers, List.map_map]
    exact List.map_congr_left fun s _ => v.feed_recording_watch s _
  · rw [progress (mt List.map_eq_nil_iff.1 nonempty), List.any_map]
    simp only [Function.comp_def, v.feed_recording_watch]
    rfl

/-- If a walk for some visitors ends, there are events for each of them such that everyone hears
just these, refuses none of them but the last, and ends in the state that they lead to. Any of the
visitors hear the same events when they walk without the others, and each does so when it walks
alone; those walks end as well. -/
theorem visitors_independent (g : Graph) (plan : WalkPlan) (v : Visitor σ) (states : List σ)
    (root : Option NodeId) (patience : Nat) (walk : Walk (Crew σ))
    (ran : g.walkWith plan v.watch states root patience = .ok walk)
    (ends : walk.progress ≠ .lost) :
    ∃ heard : σ → List Event,
      walk.watcher = states.map (fun s => feed v.hear s (heard s)) ∧
      (∀ s front, front <+: heard s → front ≠ heard s → (feed v.hear s front).2 = true) ∧
      ∀ group : List σ, group ≠ [] → group ⊆ states →
        ∃ run, g.walkWith plan v.recording.watch (group.map fun s => (s, [])) root patience =
            .ok run ∧
          run.progress ≠ .lost ∧
          run.watcher = group.map fun s =>
            (((feed v.hear s (heard s)).1, heard s), (feed v.hear s (heard s)).2) := by
  obtain ⟨origin, -, starts⟩ := exists_origin ran
  have is := Except.ok.inj (ran.symm.trans (starts (Crew.watch v.watch) (Crew.ofList states)))
  obtain ⟨watchers, progress⟩ := g.walkFrom_crew plan v.watch states origin patience
  rw [← is] at watchers progress
  have recording := fun group => g.walkFrom_recording plan v group origin patience
  dsimp only at recording
  generalize g.steps plan origin patience = r at watchers progress recording
  have heard : ∀ s, feed v.hear s (given v.hear s (Step.allEvents r.watcher)) =
      feed v.watch s r.watcher :=
    fun s => (feed_given v.hear s _).trans (v.feed_watch s _).symm
  refine ⟨fun s => given v.hear s (Step.allEvents r.watcher), ?_,
    fun s front => feed_of_prefix_given v.hear, fun group nonempty among => ?_⟩
  · simp only [heard]
    exact watchers
  · obtain ⟨told, ended⟩ := recording group
    refine ⟨_, starts _ _, fun lost => ends ?_, ?_⟩
    · -- a walk gets lost only if someone takes every step, and then it gets lost for all
      have ended := (ended nonempty).symm.trans lost
      split at ended
      · next takes =>
        obtain ⟨s, mem, all⟩ := List.any_eq_true.1 takes
        have takes : (states.any fun s => (feed v.watch s r.watcher).2) = true :=
          List.any_eq_true.2 ⟨s, among mem, all⟩
        rw [progress (List.ne_nil_of_mem (among mem)), if_pos takes, ended]
      · cases ended
    · simp only [heard]
      exact told

/-- Around two packages that contain each other, and without care for cycles, a walk for two
visitors ends because both have had enough in the end. The more patient one hears the same as alone.
-/
theorem visitors_independent_cycle :
    let g := (new .java).after cyclicHistory
    ∃ run alone,
      g.walkWith {} Visitor.countdown.recording.watch [(3, []), (8, [])] (some (madeId 0)) 0 =
          .ok run ∧
      g.walkWith {} Visitor.countdown.recording.watch [(8, [])] (some (madeId 0)) 0 = .ok alone ∧
      run.watcher.map Prod.snd = [false, false] ∧ run.watcher[1]? = alone.watcher[0]? := by
  intro g
  have facts : (g.walkWith {} Visitor.countdown.watch [3, 8] (some (madeId 0)) 0).toOption.map
      (fun walk => (walk.progress, walk.watcher)) = some (.stopped, [(0, false), (0, false)]) := by
    decide +kernel
  cases ran : g.walkWith {} Visitor.countdown.watch [3, 8] (some (madeId 0)) 0 with
  | error cause =>
    rw [ran] at facts
    cases facts
  | ok walk =>
    rw [ran] at facts
    have stopped : walk.progress = .stopped := congrArg Prod.fst (Option.some.inj facts)
    have watchers : walk.watcher = [(0, false), (0, false)] :=
      congrArg Prod.snd (Option.some.inj facts)
    obtain ⟨heard, states, -, groups⟩ :=
      visitors_independent g {} .countdown [3, 8] (some (madeId 0)) 0 walk ran
        (by rw [stopped]; decide)
    obtain ⟨run, together, -, all⟩ := groups [3, 8] (by decide) (by decide)
    obtain ⟨alone, single, -, one⟩ := groups [8] (by decide) (by decide)
    refine ⟨run, alone, together, single, ?_, ?_⟩
    · have flags := congrArg (List.map Prod.snd) (states.symm.trans watchers)
      rw [all]
      exact flags
    · rw [all, one]
      rfl

end Graph

end CodeGraph
