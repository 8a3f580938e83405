import CodeGraph.Proofs.VisitorEvents
import CodeGraph.Walk.Description

/-!
# The shape of what visitors hear

The events of a walk are traces of nodes, one after the other. The trace of a node encloses, between
the turn to its edges and the turn back, an event and an end event for each edge whose target exists
and is not hidden; between the two there may stand one trace of the target, if the edge is a
containment edge or of a kind that the plan follows. A walk that breaks off has reported a part of
such traces from the beginning on. So the turns are nested, and a depth that is counted along is the
number of visits that are open. Main statement: `Graph.events_form_traces`.
-/

set_option autoImplicit false

namespace CodeGraph

/-! ## Traces -/

namespace Event

/-- The events of a node around those of its edges. -/
def around (n : Node) (inside : List Event) : List Event :=
  .visit n :: .descend :: (inside ++ [.ascend, .visitEnd n])

end Event

namespace Graph

/-- The events of edges that are gone through in order. -/
inductive EdgesTrace (g : Graph) (plan : WalkPlan) : List Edge → List Event → Prop
  | nil : EdgesTrace g plan [] []
  /-- An edge to a hidden or a missing node is passed by. -/
  | skip {e : Edge} {edges : List Edge} {later : List Event}
      (away : plan.hides g e.target = true ∨ g.find? e.target = none)
      (rest : EdgesTrace g plan edges later) : EdgesTrace g plan (e :: edges) later
  /-- An edge is reported, and its target is not entered. -/
  | pass {e : Edge} {edges : List Edge} {t : Node} {later : List Event}
      (shown : plan.hides g e.target = false) (found : g.find? e.target = some t)
      (rest : EdgesTrace g plan edges later) :
      EdgesTrace g plan (e :: edges) (.edge e :: .endEdge e :: later)
  /-- An edge is reported around the trace of its target. -/
  | dive {e : Edge} {edges : List Edge} {t : Node} {inside later : List Event}
      (shown : plan.hides g e.target = false) (found : g.find? e.target = some t)
      (allowed : e.kind.isContainment = true ∨ plan.crossEdges.contains e.kind = true)
      (below : EdgesTrace g plan t.edges inside) (rest : EdgesTrace g plan edges later) :
      EdgesTrace g plan (e :: edges) (.edge e :: (Event.around t inside ++ .endEdge e :: later))

/-- The events of a node with its edges. -/
def NodeTrace (g : Graph) (plan : WalkPlan) (n : Node) (events : List Event) : Prop :=
  ∃ inside, g.EdgesTrace plan n.edges inside ∧ events = Event.around n inside

/-- Traces of nodes of a graph, one after the other. -/
inductive Traces (g : Graph) (plan : WalkPlan) : List Event → Prop
  | nil : Traces g plan []
  | cons {n : Node} {first later : List Event} (member : n ∈ g.nodeList)
      (trace : g.NodeTrace plan n first) (rest : Traces g plan later) :
      Traces g plan (first ++ later)

variable {g : Graph} {plan : WalkPlan}

/-- The events of an edge stand before those of the edges after it. -/
theorem EdgesTrace.append {e : Edge} {edges : List Edge} {first later : List Event}
    (one : g.EdgesTrace plan [e] first) (rest : g.EdgesTrace plan edges later) :
    g.EdgesTrace plan (e :: edges) (first ++ later) := by
  cases one with
  | skip away none =>
    cases none
    exact .skip away rest
  | pass shown found none =>
    cases none
    exact .pass shown found rest
  | dive shown found allowed below none =>
    cases none
    rw [List.cons_append, List.append_assoc]
    exact .dive shown found allowed below rest

/-- What is reported between an edge and its end: nothing, or the trace of its target if the plan
allows to go there. -/
def TargetTrace (g : Graph) (plan : WalkPlan) (e : Edge) (t : Node) (inner : List Event) : Prop :=
  inner = [] ∨ (e.kind.isContainment = true ∨ plan.crossEdges.contains e.kind = true) ∧
    g.NodeTrace plan t inner

/-- The events of an edge that is shown stand around those of its target. -/
theorem edgesTrace_around {e : Edge} {t : Node} {inner : List Event}
    (shown : plan.hides g e.target = false) (found : g.find? e.target = some t)
    (entered : g.TargetTrace plan e t inner) :
    g.EdgesTrace plan [e] (.edge e :: (inner ++ [.endEdge e])) := by
  rcases entered with rfl | ⟨allowed, inside, below, rfl⟩
  · exact .pass shown found .nil
  · exact .dive shown found allowed below .nil

/-- Traces of nodes and then more of them are traces of nodes. -/
theorem Traces.append {first later : List Event} (one : g.Traces plan first)
    (rest : g.Traces plan later) : g.Traces plan (first ++ later) := by
  induction one with
  | nil => exact rest
  | cons member trace _ ih =>
    rw [List.append_assoc]
    exact .cons member trace ih

/-- Nothing, or the trace of one node, are traces of nodes. -/
theorem traces_of_node {n : Node} (member : n ∈ g.nodeList) {events : List Event}
    (trace : events = [] ∨ g.NodeTrace plan n events) : g.Traces plan events := by
  rcases trace with rfl | trace
  · exact .nil
  · rw [← List.append_nil events]
    exact .cons member trace .nil

end Graph

/-! ## What a walk reports -/

namespace Walk

/-- From one walk to a later one, events of a sort are reported: all of them if the walk is still
going, and otherwise some from the beginning on. A walk that is not going reports nothing. -/
def Tells (P : List Event → Prop) (w w' : Walk (List Step)) : Prop :=
  ∃ told whole, w'.watcher = w.watcher ++ told ∧ P whole ∧ Step.allEvents told <+: whole ∧
    (w'.isGoing = true → w.isGoing = true ∧ Step.allEvents told = whole) ∧
    (w.isGoing = false → told = [])

variable {P Q R : List Event → Prop} {w w' w'' : Walk (List Step)}

/-- What is reported is also of every wider sort. -/
theorem Tells.mono (tells : Tells P w w') (implies : ∀ events, P events → Q events) :
    Tells Q w w' := by
  obtain ⟨told, whole, grown, sort, part, all, idle⟩ := tells
  exact ⟨told, whole, grown, implies whole sort, part, all, idle⟩

/-- One report after the other. -/
theorem Tells.andThen (first : Tells P w w') (second : Tells Q w' w'')
    (join : ∀ a b, P a → Q b → R (a ++ b)) : Tells R w w'' := by
  obtain ⟨told, whole, grown, sort, part, all, idle⟩ := first
  obtain ⟨told', whole', grown', sort', part', all', idle'⟩ := second
  have split : Step.allEvents (told ++ told') = Step.allEvents told ++ Step.allEvents told' :=
    List.flatMap_append
  refine ⟨told ++ told', whole ++ whole', ?_, join whole whole' sort sort', ?_, fun going => ?_,
    fun still => ?_⟩
  · rw [grown', grown, List.append_assoc]
  · rw [split]
    -- either the first report is complete, or there is no second one
    cases middle : w'.isGoing with
    | true =>
      rw [(all middle).2]
      exact (List.prefix_append_right_inj whole).2 part'
    | false =>
      rw [idle' middle]
      simpa [Step.allEvents] using part.trans (List.prefix_append whole whole')
  · obtain ⟨middle, same'⟩ := all' going
    obtain ⟨start, same⟩ := all middle
    exact ⟨start, by rw [split, same, same']⟩
  · have middle : w'.isGoing = false :=
      Bool.eq_false_iff.2 fun going => Bool.false_ne_true (still.symm.trans (all going).1)
    rw [idle still, idle' middle]
    rfl

/-- Nothing is reported by what leaves the watcher alone. -/
theorem tells_nothing (watcher : w'.watcher = w.watcher) (progress : w'.progress = w.progress) :
    Tells (fun events => events = []) w w' := by
  have same : w'.isGoing = w.isGoing := by
    unfold isGoing
    rw [progress]
  exact ⟨[], [], by rw [watcher, List.append_nil], rfl, List.prefix_refl _,
    fun going => ⟨same ▸ going, rfl⟩, fun _ => rfl⟩

/-- A walk that ends up not going may leave out everything. -/
theorem tells_idle (some : ∃ whole, P whole) (watcher : w'.watcher = w.watcher)
    (idle : w'.isGoing = false) : Tells P w w' := by
  obtain ⟨whole, sort⟩ := some
  exact ⟨[], whole, by rw [watcher, List.append_nil], sort, List.nil_prefix,
    fun going => absurd (idle.symm.trans going) Bool.false_ne_true, fun _ => rfl⟩

/-- A walk that is lost reports nothing more. -/
theorem tells_lose (some : ∃ whole, P whole) : Tells P w w.lose := by
  unfold lose
  split
  · exact tells_idle some rfl rfl
  · next idle => exact tells_idle some rfl (Bool.eq_false_iff.2 idle)

/-- Telling a step reports its events. -/
theorem tells_tell (w : Walk (List Step)) (step : Step) :
    Tells (fun events => events = step.events) w (w.tell Watcher.recorder step) := by
  unfold tell
  split
  · next going =>
    have events : Step.allEvents [step] = step.events := List.append_nil _
    exact ⟨[step], step.events, rfl, rfl, events ▸ List.prefix_refl _, fun _ => ⟨going, events⟩,
      fun idle => absurd (idle.symm.trans going) Bool.false_ne_true⟩
  · next idle => exact tells_idle ⟨_, rfl⟩ rfl (Bool.eq_false_iff.2 idle)

namespace Course

variable {c : Course (List Step)} (records : c.watch = Watcher.recorder)

/-- A plan goes on along containment edges and along the kinds that it follows. -/
theorem allowed_of_follows {plan : WalkPlan} {rooted : Bool} {kind : EdgeKind} {target : Node}
    (follows : plan.follows rooted kind target = true) :
    kind.isContainment = true ∨ plan.crossEdges.contains kind = true := by
  unfold WalkPlan.follows at follows
  split at follows
  · next contains => exact Or.inl contains
  · exact Or.inr follows

include records

/-- Crossing an edge reports the events of that edge, if entering a node reports those of the node.
-/
theorem tells_cross {enter : Node → Walk (List Step) → Walk (List Step)}
    (entering : ∀ n w, Tells (fun events => events = [] ∨ c.graph.NodeTrace c.plan n events) w
      (enter n w)) (w : Walk (List Step)) (e : Edge) :
    Tells (c.graph.EdgesTrace c.plan [e]) w (c.cross enter w e) := by
  cases hidden : c.plan.hides c.graph e.target with
  | true =>
    have stays : c.cross enter w e = w := by simp [cross, hidden]
    rw [stays]
    exact (tells_nothing rfl rfl).mono fun _ none => none ▸ .skip (.inl hidden) .nil
  | false =>
    cases found : c.graph.find? e.target with
    | none =>
      have stays : c.cross enter w e = w := by simp [cross, found]
      rw [stays]
      exact (tells_nothing rfl rfl).mono fun _ none => none ▸ .skip (.inr found) .nil
    | some target =>
      cases going : w.isGoing with
      | false =>
        have stays : c.cross enter w e = w := by simp [cross, going]
        rw [stays]
        exact tells_idle ⟨_, .pass hidden found .nil⟩ rfl going
      | true =>
        have goes : c.cross enter w e =
            let w := if c.plan.collects c.rooted e.kind target then w.collect e.target else w
            let w := w.tell c.watch (.edge e)
            let w := if c.plan.follows c.rooted e.kind target then enter target w else w
            w.tell c.watch (.endEdge e) := by
          simp [cross, going, hidden, found]
        rw [goes, records]
        dsimp only
        have collected : Tells (fun events => events = []) w
            (if c.plan.collects c.rooted e.kind target then w.collect e.target else w) := by
          split
          · unfold collect
            split <;> exact tells_nothing rfl rfl
          · exact tells_nothing rfl rfl
        have told := collected.andThen (tells_tell _ (.edge e))
          (R := fun events => events = [.edge e]) fun _ _ none one => by rw [none, one]; rfl
        have entered : ∀ w, Tells (c.graph.TargetTrace c.plan e target) w
            (if c.plan.follows c.rooted e.kind target then enter target w else w) := by
          intro w
          split
          · next follows =>
            exact (entering target w).mono fun _ => Or.imp_right fun trace =>
              ⟨allowed_of_follows follows, trace⟩
          · exact (tells_nothing rfl rfl).mono fun _ => Or.inl
        have inside := told.andThen (entered _)
          (R := fun events => ∃ inner, events = .edge e :: inner ∧
            c.graph.TargetTrace c.plan e target inner) fun _ inner one trace =>
            ⟨inner, by rw [one]; rfl, trace⟩
        refine inside.andThen (tells_tell _ (.endEdge e)) fun _ _ around last => ?_
        obtain ⟨inner, is, trace⟩ := around
        rw [is, last]
        exact Graph.edgesTrace_around hidden found trace

/-- Going through edges reports them in order. -/
theorem tells_edges {enter : Node → Walk (List Step) → Walk (List Step)}
    (entering : ∀ n w, Tells (fun events => events = [] ∨ c.graph.NodeTrace c.plan n events) w
      (enter n w)) (edges : List Edge) (w : Walk (List Step)) :
    Tells (c.graph.EdgesTrace c.plan edges) w (edges.foldl (c.cross enter) w) := by
  induction edges generalizing w with
  | nil => exact (tells_nothing rfl rfl).mono fun _ none => none ▸ .nil
  | cons e edges ih => exact (tells_cross records entering w e).andThen (ih _) fun _ _ => .append

/-- Entering a node reports its trace, or nothing. -/
theorem tells_enter (depth : Nat) (n : Node) (w : Walk (List Step)) :
    Tells (fun events => events = [] ∨ c.graph.NodeTrace c.plan n events) w (c.enter depth n w) := by
  induction depth generalizing n w with
  | zero => exact tells_lose ⟨[], Or.inl rfl⟩
  | succ depth ih =>
    unfold enter
    split
    · exact (tells_nothing rfl rfl).mono fun _ => Or.inl
    · rw [records]
      have marked : Tells (fun events => events = []) w
          (if c.plan.remembers then w.mark n.id else w) := by
        split <;> exact tells_nothing rfl rfl
      have told := marked.andThen (tells_tell _ (.enter n))
        (R := fun events => events = [.visit n, .descend]) fun _ _ none two => by rw [none, two]; rfl
      have crossed := told.andThen (tells_edges records ih n.edges _)
        (R := fun events => ∃ inside, c.graph.EdgesTrace c.plan n.edges inside ∧
          events = .visit n :: .descend :: inside) fun _ inside two trace =>
            ⟨inside, trace, by rw [two]; rfl⟩
      refine crossed.andThen (tells_tell _ (.leave n)) fun _ _ trace two => Or.inr ?_
      obtain ⟨inside, trace, is⟩ := trace
      exact ⟨inside, trace, by rw [is, two]; rfl⟩

/-- Entering a node of the graph reports its trace or nothing. -/
theorem tells_enter_member (depth : Nat) {n : Node} (member : n ∈ c.graph.nodeList)
    (w : Walk (List Step)) : Tells (c.graph.Traces c.plan) w (c.enter depth n w) :=
  (tells_enter records depth n w).mono fun _ => Graph.traces_of_node member

omit records in
/-- Steps that each report traces of nodes report traces of nodes together. -/
theorem tells_foldl {α : Type} (f : Walk (List Step) → α → Walk (List Step)) (xs : List α)
    (each : ∀ x ∈ xs, ∀ w, Tells (c.graph.Traces c.plan) w (f w x)) (w : Walk (List Step)) :
    Tells (c.graph.Traces c.plan) w (xs.foldl f w) := by
  induction xs generalizing w with
  | nil => exact (tells_nothing rfl rfl).mono fun _ none => none ▸ .nil
  | cons x xs ih =>
    obtain ⟨first, others⟩ := List.forall_mem_cons.1 each
    exact (first w).andThen (ih others _) fun _ _ => .append

/-- Entering a special node reports its trace or nothing. -/
theorem tells_enterSpecial (limit : Nat) {n : Node} (member : n ∈ c.graph.nodeList)
    (w : Walk (List Step)) : Tells (c.graph.Traces c.plan) w (c.enterSpecial limit w n) := by
  unfold enterSpecial
  split
  · exact tells_enter_member records limit member w
  · exact (tells_nothing rfl rfl).mono fun _ none => none ▸ .nil

/-- Entering a collected node reports its trace or nothing. -/
theorem tells_enterCollected (limit : Nat) (w : Walk (List Step)) (id : NodeId) :
    Tells (c.graph.Traces c.plan) w (c.enterCollected limit w id) := by
  have none : ∀ {w w' : Walk (List Step)}, w'.watcher = w.watcher → w'.progress = w.progress →
      Tells (c.graph.Traces c.plan) w w' := fun watcher progress =>
    (tells_nothing watcher progress).mono fun _ none => none ▸ .nil
  unfold enterCollected
  split
  · dsimp only
    split
    · exact none rfl rfl
    · split
      · exact none rfl rfl
      · next n found =>
        have dropped : Tells (c.graph.Traces c.plan) w (w.drop id) := none rfl rfl
        refine dropped.andThen (tells_enter_member records limit ?_ _) fun _ _ => .append
        exact Graph.mem_nodeList_of_find? found
  · exact none rfl rfl

/-- The pass over collected nodes reports traces of nodes. -/
theorem tells_finish (limit rounds : Nat) (w : Walk (List Step)) :
    Tells (c.graph.Traces c.plan) w (c.finish limit rounds w) := by
  induction rounds generalizing w with
  | zero => exact tells_lose ⟨[], .nil⟩
  | succ rounds ih =>
    unfold finish
    split
    · exact (tells_nothing rfl rfl).mono fun _ none => none ▸ .nil
    · have round := tells_foldl (c.enterCollected limit) w.pending.toList
        (fun id _ w => tells_enterCollected records limit w id) w
      exact round.andThen (ih _) fun _ _ => .append

/-- A walk reports traces of nodes, one after the other. -/
theorem tells_run (limit : Nat) {root : Option Node} (there : ∀ n, root = some n →
    n ∈ c.graph.nodeList) (w : Walk (List Step)) :
    Tells (c.graph.Traces c.plan) w (c.run limit root w) := by
  cases root with
  | none =>
    refine tells_foldl _ c.starts (fun n mem w => ?_) w
    exact tells_enter_member records limit (List.mem_of_mem_filter mem) w
  | some n =>
    have entered := tells_enter_member records limit (there n rfl) w
    have special := entered.andThen (tells_foldl (c.enterSpecial limit) c.graph.nodeList
      (fun m mem w => tells_enterSpecial records limit mem w) _) fun _ _ => Graph.Traces.append
    have reached : Tells (c.graph.Traces c.plan) w (if c.plan.special && !c.plan.usedOnly then
        c.graph.nodeList.foldl (c.enterSpecial limit) (c.enter limit n w)
        else c.enter limit n w) := by
      split
      · exact special
      · exact entered
    unfold run
    dsimp only
    split
    · exact reached.andThen (tells_finish records limit limit _) fun _ _ => .append
    · exact reached

end Course

end Walk

/-- The events of a walk are traces of nodes, or some from the beginning on if the walk gets lost.
-/
theorem Graph.events_steps (g : Graph) (plan : WalkPlan) {root : Option Node}
    (there : ∀ n, root = some n → n ∈ g.nodeList) (patience : Nat) :
    let r := g.steps plan root patience
    ∃ whole, g.Traces plan whole ∧ Step.allEvents r.watcher <+: whole ∧
      (r.progress ≠ .lost → Step.allEvents r.watcher = whole) := by
  intro r
  obtain ⟨told, whole, grown, traces, part, all, -⟩ := Walk.Course.tells_run
    (c := ⟨g, plan, root.isSome, Watcher.recorder⟩) rfl (g.size + 2 + patience) there
    { watcher := [], visited := .withRoom g.size }
  have steps : r.watcher = told := grown
  rw [steps]
  refine ⟨whole, traces, part, fun found => (all ?_).2⟩
  have unstopped := g.progress_steps plan root patience
  change (r.progress == .going) = true
  cases progress : r.progress with
  | going => rfl
  | stopped => exact absurd progress unstopped
  | lost => exact absurd progress found

/-! ## Depths -/

namespace Event

/-- How deep a walk is after an event; there is no way back from depth zero. -/
def turn : Nat → Event → Option Nat
  | depth, .descend => some (depth + 1)
  | 0, .ascend => none
  | depth + 1, .ascend => some depth
  | depth, _ => some depth

def isVisit : Event → Bool
  | .visit _ => true
  | _ => false

def isVisitEnd : Event → Bool
  | .visitEnd _ => true
  | _ => false

/-- Whether an event is the first of the two that make up a step. -/
def isHalf : Event → Bool
  | .visit _ => true
  | .ascend => true
  | _ => false

end Event

namespace Graph

variable {g : Graph} {plan : WalkPlan}

/-- The events of edges lead back to the depth where they began. -/
theorem EdgesTrace.depth {edges : List Edge} {events : List Event}
    (trace : g.EdgesTrace plan edges events) (depth : Nat) :
    events.foldlM Event.turn depth = some depth := by
  induction trace generalizing depth with
  | nil => rfl
  | skip _ _ ih => exact ih depth
  | pass _ _ _ ih => simp [Event.turn, ih]
  | dive _ _ _ _ _ below rest => simp [Event.around, Event.turn, below, rest]

/-- Traces of nodes end as deep as they begin, and go nowhere above. -/
theorem Traces.depth {events : List Event} (traces : g.Traces plan events) (depth : Nat) :
    events.foldlM Event.turn depth = some depth := by
  induction traces with
  | nil => rfl
  | cons _ trace _ ih =>
    obtain ⟨inside, trace, rfl⟩ := trace
    simp [Event.around, Event.turn, trace.depth, ih]

end Graph

namespace Event

/-- A walk never turns back further than it went, and neither does a part of it from the beginning
on. -/
theorem exists_depth_of_prefix {front events : List Event} (part : front <+: events)
    {depth last : Nat} (all : events.foldlM turn depth = some last) :
    ∃ middle, front.foldlM turn depth = some middle := by
  obtain ⟨rest, rfl⟩ := part
  rw [List.foldlM_append] at all
  obtain ⟨middle, first, -⟩ := Option.bind_eq_some_iff.1 all
  exact ⟨middle, first⟩

/-- An event changes the depth by one if it goes down or up, and not at all otherwise. -/
theorem count_turn {depth next : Nat} {event : Event} (turned : turn depth event = some next) :
    next + [event].count .ascend = depth + [event].count .descend := by
  cases event with
  | ascend =>
    cases depth with
    | zero => cases turned
    | succ depth =>
      cases turned
      rfl
  | _ =>
    cases turned
    rfl

/-- The depth is the number of turns down without those back. -/
theorem count_of_depth {events : List Event} {depth last : Nat}
    (all : events.foldlM turn depth = some last) :
    last + events.count .ascend = depth + events.count .descend := by
  induction events generalizing depth with
  | nil =>
    cases all
    rfl
  | cons event events ih =>
    obtain ⟨next, first, rest⟩ := Option.bind_eq_some_iff.1 all
    have one := count_turn first
    have others := ih rest
    rw [← List.singleton_append, List.count_append, List.count_append]
    omega

/-- As long as a walk does not turn back too far, a description counts along. -/
theorem hear_description (texts : TextTable) {d : Description} {next : Nat} {event : Event}
    (turned : turn d.depth event = some next) :
    ∃ d', (Description.visitor texts).hear d event = (d', true) ∧ d'.depth = next := by
  cases event with
  | ascend =>
    refine ⟨_, rfl, ?_⟩
    cases depth : d.depth with
    | zero =>
      rw [depth] at turned
      cases turned
    | succ k =>
      rw [depth] at turned
      cases turned
      exact congrArg (· - 1) depth
  | _ =>
    cases turned
    exact ⟨_, rfl, rfl⟩

/-- The describing visitor is as deep as the events that it hears. -/
theorem depth_description (texts : TextTable) {events : List Event} {d : Description} {last : Nat}
    (all : events.foldlM turn d.depth = some last) :
    (feed (Description.visitor texts).hear d events).1.depth = last := by
  induction events generalizing d with
  | nil =>
    cases all
    rfl
  | cons event events ih =>
    obtain ⟨next, first, rest⟩ := Option.bind_eq_some_iff.1 all
    obtain ⟨d', heard, rfl⟩ := hear_description texts first
    rw [feed_cons_of_taken _ heard]
    exact ih rest

end Event

/-- Between steps there are as many visits as turns down, and as many ends of visits as turns back.
-/
theorem Step.count_visits (steps : List Step) {front : List Event}
    (part : front <+: Step.allEvents steps)
    (settled : ∀ event, front.getLast? = some event → event.isHalf = false) :
    front.countP Event.isVisit = front.count .descend ∧
      front.countP Event.isVisitEnd = front.count .ascend := by
  induction steps generalizing front with
  | nil =>
    rw [List.prefix_nil.1 part]
    exact ⟨rfl, rfl⟩
  | cons step steps ih =>
    have later : ∀ (first : Event) (rest : List Event),
        (∀ event, (first :: rest).getLast? = some event → event.isHalf = false) →
        ∀ event, rest.getLast? = some event → event.isHalf = false := by
      intro first rest settled event last
      refine settled event ?_
      rw [List.getLast?_cons, last]
      rfl
    cases front with
    | nil => exact ⟨rfl, rfl⟩
    | cons first front =>
      cases step with
      | enter n =>
        obtain ⟨rfl, after⟩ := List.cons_prefix_cons.1 part
        cases front with
        | nil => exact absurd (settled (.visit n) rfl) (by simp [Event.isHalf])
        | cons second front =>
          obtain ⟨rfl, rest⟩ := List.cons_prefix_cons.1 after
          obtain ⟨visits, ends⟩ := ih rest (later _ _ (later _ _ settled))
          simp [List.countP_cons, Event.isVisit, Event.isVisitEnd, visits, ends]
      | edge e | endEdge e =>
        obtain ⟨rfl, rest⟩ := List.cons_prefix_cons.1 part
        obtain ⟨visits, ends⟩ := ih rest (later _ _ settled)
        simp [Event.isVisit, Event.isVisitEnd, visits, ends]
      | leave n =>
        obtain ⟨rfl, after⟩ := List.cons_prefix_cons.1 part
        cases front with
        | nil => exact absurd (settled .ascend rfl) (by simp [Event.isHalf])
        | cons second front =>
          obtain ⟨rfl, rest⟩ := List.cons_prefix_cons.1 after
          obtain ⟨visits, ends⟩ := ih rest (later _ _ (later _ _ settled))
          simp [List.countP_cons, Event.isVisit, Event.isVisitEnd, visits, ends]

namespace Graph

variable {σ : Type}

/-- Whoever watches a walk, what it hears are traces of nodes from the beginning on, and all of them
if the walk ends and it has not had enough before; it ends in the state that these events lead to.
After any part of the events from the beginning on there are no more turns back than turns down, and
a description that counts along stands at the difference, which between two steps is the number of
open visits. -/
theorem events_form_traces (g : Graph) (plan : WalkPlan) (v : Visitor σ) (states : List σ)
    (root : Option NodeId) (patience : Nat) (run : Walk (Crew (σ × List Event)))
    (ran : g.walkWith plan v.recording.watch (states.map fun s => (s, [])) root patience =
      .ok run) :
    ∀ member ∈ run.watcher,
      (∃ s ∈ states, feed v.hear s member.1.2 = (member.1.1, member.2)) ∧
      (∃ whole, g.Traces plan whole ∧ member.1.2 <+: whole ∧
        (run.progress ≠ .lost → member.2 = true → member.1.2 = whole)) ∧
      ∀ front, front <+: member.1.2 → front.count .ascend ≤ front.count .descend ∧
        ∀ texts, let d := (feed (Description.visitor texts).hear {} front).1
          d.depth + front.count .ascend = front.count .descend ∧
          ((∀ event, front.getLast? = some event → event.isHalf = false) →
            d.depth + front.countP Event.isVisitEnd = front.countP Event.isVisit) := by
  obtain ⟨origin, found, starts⟩ := exists_origin ran
  have there : ∀ n, origin = some n → n ∈ g.nodeList := fun n is =>
    let ⟨_, found⟩ := found n is
    mem_nodeList_of_find? found
  have is := Except.ok.inj (ran.symm.trans (starts _ _))
  obtain ⟨watchers, progress⟩ := g.walkFrom_recording plan v states origin patience
  obtain ⟨whole, traces, part, all⟩ := g.events_steps plan there patience
  rw [← is] at watchers progress
  generalize g.steps plan origin patience = r at watchers progress part all
  intro member mem
  rw [watchers] at mem
  obtain ⟨s, among, rfl⟩ := List.mem_map.1 mem
  have heard := given_prefix v.hear s (Step.allEvents r.watcher)
  refine ⟨⟨s, among, ?_⟩, ⟨whole, traces, heard.trans part, fun ends watching => ?_⟩,
    fun front before => ?_⟩
  · rw [feed_given, ← v.feed_watch]
  · -- who has not had enough was given everything, and keeps the walk from stopping
    have takes : (states.any fun s => (feed v.watch s r.watcher).2) = true :=
      List.any_eq_true.2 ⟨s, among, watching⟩
    rw [progress (List.ne_nil_of_mem among), if_pos takes] at ends
    rw [v.feed_watch] at watching
    exact (given_of_taken v.hear watching).trans (all ends)
  · obtain ⟨depth, level⟩ :=
      Event.exists_depth_of_prefix (before.trans (heard.trans part)) (traces.depth 0)
    have counted := Event.count_of_depth level
    refine ⟨by omega, fun texts => ?_⟩
    have described : (feed (Description.visitor texts).hear {} front).1.depth = depth :=
      Event.depth_description texts level
    refine ⟨by omega, fun settled => ?_⟩
    obtain ⟨visits, ends⟩ := Step.count_visits r.watcher (before.trans heard) settled
    omega

/-- Around two packages that contain each other, and from there to the special nodes, a visitor that
goes on hears whole traces, and one that has had enough hears how they begin. -/
theorem events_form_traces_cycle :
    let g := (new .java).after cyclicHistory
    ∃ run full part,
      g.walkWith { safe := true } Visitor.countdown.recording.watch [(100, []), (5, [])]
        (some (madeId 0)) 0 = .ok run ∧
      full ∈ run.watcher ∧ full.2 = true ∧ full.1.2.length = 20 ∧
      g.Traces { safe := true } full.1.2 ∧
      part ∈ run.watcher ∧ part.2 = false ∧ part.1.2.length = 7 ∧
      ∃ whole, g.Traces { safe := true } whole ∧ part.1.2 <+: whole := by
  intro g
  have facts : (g.walkWith { safe := true } Visitor.countdown.recording.watch [(100, []), (5, [])]
      (some (madeId 0)) 0).toOption.map
        (fun run => (run.progress, run.watcher.map fun member => (member.1.2.length, member.2))) =
      some (.going, [(20, true), (7, false)]) := by decide +kernel
  cases ran : g.walkWith { safe := true } Visitor.countdown.recording.watch [(100, []), (5, [])]
      (some (madeId 0)) 0 with
  | error cause =>
    rw [ran] at facts
    cases facts
  | ok run =>
    rw [ran] at facts
    have going : run.progress = .going := congrArg Prod.fst (Option.some.inj facts)
    have watchers : (run.watcher.map fun member => (member.1.2.length, member.2)) =
        [(20, true), (7, false)] := congrArg Prod.snd (Option.some.inj facts)
    have traces := events_form_traces g { safe := true } .countdown [100, 5] (some (madeId 0)) 0 run
      ran
    obtain ⟨full, isFull, twenty⟩ : ∃ full ∈ run.watcher, (full.1.2.length, full.2) = (20, true) :=
      List.mem_map.1 (watchers ▸ List.mem_cons_self)
    obtain ⟨part, isPart, seven⟩ : ∃ part ∈ run.watcher, (part.1.2.length, part.2) = (7, false) :=
      List.mem_map.1 (watchers ▸ List.mem_cons_of_mem _ List.mem_cons_self)
    obtain ⟨-, ⟨whole, trace, -, all⟩, -⟩ := traces full isFull
    obtain ⟨-, ⟨longer, trace', begins, -⟩, -⟩ := traces part isPart
    obtain ⟨length, watching⟩ := Prod.mk.inj twenty
    obtain ⟨length', stopped⟩ := Prod.mk.inj seven
    have heard : full.1.2 = whole := all (by rw [going]; decide) watching
    exact ⟨run, full, part, rfl, isFull, watching, length, heard ▸ trace, isPart, stopped, length',
      longer, trace', begins⟩

end Graph

end CodeGraph
