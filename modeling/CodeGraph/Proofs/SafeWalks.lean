import CodeGraph.Proofs.WalkLimits

/-!
# Safe walks

In a graph with cycles of any kind, edges from nodes to themselves and edges to nodes that do not
exist, a safe walk comes to its end. Nested visits and the rounds over collected nodes draw on one
supply, the nodes that have not been entered yet, and none is entered twice. So nobody who watches
hears of a second visit to a node. Main statement: `Graph.visits_once_after`.
-/

set_option autoImplicit false

namespace CodeGraph

variable {σ : Type}

/-! ## Visits -/

/-- The node that a step enters. -/
def Step.entered? : Step → Option Node
  | .enter n => some n
  | _ => none

namespace Event

/-- The id of the node that an event visits. -/
def visited? : Event → Option NodeId
  | .visit n => some n.id
  | _ => none

/-- The ids of the nodes that events visit, in order. -/
def visits (events : List Event) : List NodeId :=
  events.filterMap visited?

/-- The nodes that are visited in two parts of a walk are visited one after another. -/
theorem visits_append (first later : List Event) :
    visits (first ++ later) = visits first ++ visits later :=
  List.filterMap_append

/-- Steps visit the nodes that they enter. -/
theorem visits_allEvents (steps : List Step) :
    visits (Step.allEvents steps) = (steps.filterMap Step.entered?).map Node.id := by
  induction steps with
  | nil => rfl
  | cons step steps ih =>
    have split : visits (Step.allEvents (step :: steps)) =
        visits step.events ++ visits (Step.allEvents steps) := visits_append _ _
    rw [split, ih]
    cases step <;> rfl

/-- What a machine is given visits no node twice if all events together do not. -/
theorem nodup_visits_given {events : List Event} (once : (visits events).Nodup)
    (m : σ → Event → σ × Bool) (s : σ) : (visits (given m s events)).Nodup := by
  have part := given_prefix m s events
  exact once.sublist (part.sublist.filterMap visited?)

end Event

namespace Graph

/-- A mere lister lists the nodes that are entered according to one who writes the steps down. -/
theorem alike_lister (g : Graph) (plan : WalkPlan) (root : Option Node) (patience : Nat) :
    Walk.Alike (fun steps nodes => nodes = steps.filterMap Step.entered?)
      (g.steps plan root patience) (g.walkFrom plan Watcher.lister [] root patience) := by
  have agrees : Agrees (fun steps nodes => nodes = steps.filterMap Step.entered?)
      Watcher.recorder Watcher.lister := by
    rintro steps _ step rfl
    refine ⟨?_, (Watcher.snd_lister _ step).symm⟩
    unfold Watcher.recorder
    dsimp only
    rw [List.filterMap_append]
    cases step with
    | enter n => rfl
    | edge e | endEdge e | leave n => exact (List.append_nil _).symm
  have start : ([] : List Node) = ([] : List Step).filterMap Step.entered? := rfl
  exact g.walkFrom_alike agrees plan start root patience

/-- A safe walk is not lost and visits no node twice. -/
theorem steps_of_safe {g : Graph} (indexed : g.nodes.Indexed) {plan : WalkPlan}
    (safe : plan.safe = true) {root : Option Node}
    (there : ∀ n, root = some n → g.find? n.id = some n) (patience : Nat) :
    (g.steps plan root patience).progress = .going ∧
      (Event.visits (Step.allEvents (g.steps plan root patience).watcher)).Nodup := by
  have exactly := listsExactly_walkFrom indexed safe there patience
  have alike := g.alike_lister plan root patience
  have once := exactly.once
  rw [alike.watcher] at once
  refine ⟨alike.progress.trans exactly.going, ?_⟩
  rw [Event.visits_allEvents]
  exact once

/-- From a node that does not exist there is no walk. Any other safe walk, from a root or from none,
ends by itself, and no visitor hears of two visits to one node. -/
theorem visits_once_after (language : Language) (history : List Operation) (plan : WalkPlan)
    (safe : plan.safe = true) (v : Visitor σ) (states : List σ) (root : Option NodeId) :
    let g := (new language).after history
    (∀ id, root = some id → g.find? id = none → ∀ patience,
      g.walkWith plan v.watch states root patience = .error (.noSuchNode .walk id.raw)) ∧
    ((∀ id, root = some id → ∃ n, g.find? id = some n) →
      ∃ run, g.EndsIn plan v states root run ∧
        ∀ member ∈ run.watcher, (Event.visits member.1.2).Nodup) := by
  intro g
  have indexed : g.nodes.Indexed := indexed_after language history
  constructor
  · rintro id rfl missing patience
    simp only [walkWith, walk, node, missing]
  · intro there
    obtain ⟨origin, -, found, starts⟩ := walk_eq_ok indexed there
    obtain ⟨going, once⟩ := steps_of_safe indexed safe found 0
    have ends : (g.steps plan origin 0).progress ≠ .lost := by
      rw [going]
      decide
    obtain ⟨endsIn, told⟩ := endsIn_of_found (starts plan) ends v states
    refine ⟨_, endsIn, fun member mem => ?_⟩
    rw [told] at mem
    obtain ⟨s, -, rfl⟩ := List.mem_map.1 mem
    exact Event.nodup_visits_given once v.hear s

/-- A history that makes two packages contain each other, and one of them a variant of itself and of
the root. -/
def tangledHistory : List Operation :=
  [.createNode .package, .createNode .package,
    .addEdge .scopeHasMember (madeId 0) (madeId 1), .addEdge .scopeHasMember (madeId 1) (madeId 0),
    .addEdge .memberVariant (madeId 1) (madeId 1), .addEdge .memberVariant (madeId 1) rootId]

/-- A walk around both cycles ends after one visit to each node, and one visitor has left before. -/
theorem visits_once_after_tangled :
    let g := (new .java).after tangledHistory
    let plan : WalkPlan := { safe := true, crossEdgeTree := true, special := false }
    ∃ run, g.EndsIn plan .countdown [100, 3] (some (madeId 0)) run ∧
      (∀ member ∈ run.watcher, (Event.visits member.1.2).Nodup) ∧
      (run.watcher.map fun member => Event.visits member.1.2) =
        [[madeId 0, madeId 1, rootId], [madeId 0, madeId 1]] := by
  intro g plan
  have facts : (g.find? (madeId 0)).isSome = true ∧
      (g.walkWith plan Visitor.countdown.recording.watch [(100, []), (3, [])] (some (madeId 0))
        0).toOption.map (fun run => run.watcher.map fun member => Event.visits member.1.2) =
        some [[madeId 0, madeId 1, rootId], [madeId 0, madeId 1]] := by
    decide +kernel
  obtain ⟨there, heard⟩ := facts
  obtain ⟨run, ends, once⟩ := (visits_once_after .java tangledHistory plan rfl .countdown [100, 3]
    (some (madeId 0))).2 fun id same => Option.isSome_iff_exists.1 (Option.some.inj same ▸ there)
  refine ⟨run, ends, once, ?_⟩
  have recorded := ends.recorded 0
  dsimp only [List.map] at recorded
  rw [recorded] at heard
  exact Option.some.inj heard

end Graph

end CodeGraph
