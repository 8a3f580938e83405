import CodeGraph.Proofs.WalkSimulation
import Mathlib.Data.List.Infix

/-!
# Walks as lists of steps

A machine is told the steps of a walk one by one until it refuses one. Someone who only writes the
steps down never refuses one, and the walk of any other machine is that walk, broken off at the step
that the machine refuses: what the machine makes of a walk is what it makes of the list of its steps
(`Graph.walkFrom_behind`). For a crew this means that everyone takes the same list, each on its own
(`Crew.feed_watch`).
-/

set_option autoImplicit false

namespace CodeGraph

variable {σ τ α : Type}

/-- Gives a machine one thing after the other until it refuses one: its last state, and whether it
has refused none. -/
def feed (m : σ → α → σ × Bool) : σ → List α → σ × Bool
  | s, [] => (s, true)
  | s, x :: xs =>
    match m s x with
    | (s, true) => feed m s xs
    | (s, false) => (s, false)

section Feed

variable (m : σ → α → σ × Bool)

/-- A machine that takes the first thing goes on with the others. -/
theorem feed_cons_of_taken {s t : σ} {x : α} (taken : m s x = (t, true)) (xs : List α) :
    feed m s (x :: xs) = feed m t xs := by
  simp only [feed, taken]

/-- A machine that refuses the first thing takes no others. -/
theorem feed_cons_of_refused {s t : σ} {x : α} (refused : m s x = (t, false)) (xs : List α) :
    feed m s (x :: xs) = (t, false) := by
  simp only [feed, refused]

/-- After things that are all taken a machine goes on with the others. -/
theorem feed_append_of_taken {s t : σ} {xs : List α} (taken : feed m s xs = (t, true))
    (ys : List α) : feed m s (xs ++ ys) = feed m t ys := by
  induction xs generalizing s with
  | nil =>
    cases taken
    rfl
  | cons x xs ih =>
    rcases answer : m s x with ⟨u, more⟩
    cases more with
    | true =>
      rw [feed_cons_of_taken m answer] at taken
      rw [List.cons_append, feed_cons_of_taken m answer, ih taken]
    | false =>
      rw [feed_cons_of_refused m answer] at taken
      cases taken

/-- What comes after the first thing that is refused makes no difference. -/
theorem feed_append_of_refused {s t : σ} {xs : List α} (refused : feed m s xs = (t, false))
    (ys : List α) : feed m s (xs ++ ys) = (t, false) := by
  induction xs generalizing s with
  | nil => cases refused
  | cons x xs ih =>
    rcases answer : m s x with ⟨u, more⟩
    cases more with
    | true =>
      rw [feed_cons_of_taken m answer] at refused
      rw [List.cons_append, feed_cons_of_taken m answer, ih refused]
    | false =>
      rw [feed_cons_of_refused m answer] at refused
      rw [List.cons_append, feed_cons_of_refused m answer, refused]

/-- A machine that has taken all things answers to one more. -/
theorem feed_snoc_of_taken {s t : σ} {xs : List α} (taken : feed m s xs = (t, true)) (x : α) :
    feed m s (xs ++ [x]) = m t x := by
  rw [feed_append_of_taken m taken]
  rcases answer : m t x with ⟨u, more⟩
  cases more with
  | true => exact feed_cons_of_taken m answer []
  | false => exact feed_cons_of_refused m answer []

end Feed

/-- Writes every step down and always goes on. -/
def Watcher.recorder : Watcher (List Step) := fun steps step =>
  (steps ++ [step], true)

namespace Walk

/-! ## Parts of walks -/

namespace Course

/-- A property of walks that no small part of a walk destroys. -/
structure Kept (c : Course τ) (P : Walk τ → Prop) : Prop where
  tell : ∀ w step, P w → P (w.tell c.watch step)
  mark : ∀ w id, P w → P (w.mark id)
  collect : ∀ w id, P w → P (w.collect id)
  drop : ∀ w id, P w → P (w.drop id)
  lose : ∀ w, P w → P w.lose

/-- One walk comes from another by small parts: what these keep is not destroyed. -/
def Part (c : Course τ) (w w' : Walk τ) : Prop :=
  ∀ P : Walk τ → Prop, c.Kept P → P w → P w'

variable (c : Course τ)

/-- Telling a step is a part of a walk. -/
theorem part_tell (step : Step) (w : Walk τ) : c.Part w (w.tell c.watch step) :=
  fun _ kept => kept.tell w step

/-- Crossing an edge is a part of a walk, if entering a node is. -/
theorem part_cross {enter : Node → Walk τ → Walk τ} (entering : ∀ n w, c.Part w (enter n w))
    (e : Edge) (w : Walk τ) : c.Part w (c.cross enter w e) := by
  intro P kept holds
  unfold cross
  split
  · exact holds
  · split
    · exact holds
    · next target _ =>
      have collected : P (if c.plan.collects c.rooted e.kind target then w.collect e.target
          else w) := by
        split
        · exact kept.collect w e.target holds
        · exact holds
      have told := kept.tell _ (.edge e) collected
      refine kept.tell _ (.endEdge e) ?_
      split
      · exact entering target _ P kept told
      · exact told

/-- Entering a node is a part of a walk. -/
theorem part_enter (depth : Nat) (n : Node) (w : Walk τ) : c.Part w (c.enter depth n w) := by
  induction depth generalizing n w with
  | zero => exact fun P kept => kept.lose w
  | succ depth ih =>
    intro P kept holds
    unfold enter
    split
    · exact holds
    · have marked : P (if c.plan.remembers then w.mark n.id else w) := by
        split
        · exact kept.mark w n.id holds
        · exact holds
      refine kept.tell _ (.leave n) ?_
      exact List.foldlRecOn n.edges _ (kept.tell _ (.enter n) marked) fun w holds e _ =>
        c.part_cross ih e w P kept holds

/-- Entering a special node is a part of a walk. -/
theorem part_enterSpecial (limit : Nat) (n : Node) (w : Walk τ) :
    c.Part w (c.enterSpecial limit w n) := by
  intro P kept holds
  unfold enterSpecial
  split
  · exact c.part_enter limit n w P kept holds
  · exact holds

/-- Entering a collected node is a part of a walk. -/
theorem part_enterCollected (limit : Nat) (id : NodeId) (w : Walk τ) :
    c.Part w (c.enterCollected limit w id) := by
  intro P kept holds
  have dropped := kept.drop w id holds
  unfold enterCollected
  split
  · dsimp only
    split
    · exact dropped
    · split
      · exact dropped
      · exact c.part_enter limit _ _ P kept dropped
  · exact holds

/-- The pass over collected nodes is a part of a walk. -/
theorem part_finish (limit rounds : Nat) (w : Walk τ) : c.Part w (c.finish limit rounds w) := by
  induction rounds generalizing w with
  | zero => exact fun P kept => kept.lose w
  | succ rounds ih =>
    intro P kept holds
    unfold finish
    split
    · exact holds
    · exact ih _ P kept (List.foldlRecOn _ _ holds fun w holds id _ =>
        c.part_enterCollected limit id w P kept holds)

/-- A whole walk is made of its parts. -/
theorem part_run (limit : Nat) (root : Option Node) (w : Walk τ) :
    c.Part w (c.run limit root w) := by
  intro P kept holds
  cases root with
  | none =>
    exact List.foldlRecOn c.starts _ holds fun w holds n _ => c.part_enter limit n w P kept holds
  | some n =>
    have entered := c.part_enter limit n w P kept holds
    have special : P (if c.plan.special && !c.plan.usedOnly then
        c.graph.nodeList.foldl (c.enterSpecial limit) (c.enter limit n w)
        else c.enter limit n w) := by
      split
      · exact List.foldlRecOn _ _ entered fun w holds m _ =>
          c.part_enterSpecial limit m w P kept holds
      · exact entered
    unfold run
    dsimp only
    split
    · exact c.part_finish limit limit _ P kept special
    · exact special

/-- A walk that has stopped stays as it is, as far as the one who watches can tell. -/
theorem kept_stopped (s : τ) : c.Kept fun w => w.watcher = s ∧ w.progress = .stopped where
  tell w step holds := by
    unfold Walk.tell Walk.isGoing
    rw [holds.2]
    exact holds
  mark _ _ holds := holds
  collect w id holds := by
    unfold Walk.collect
    split <;> exact holds
  drop _ _ holds := holds
  lose w holds := by
    unfold Walk.lose Walk.isGoing
    rw [holds.2]
    exact holds

/-- The same course with someone who writes the steps down. -/
abbrev recorded : Course (List Step) :=
  c.watchedBy Watcher.recorder

/-- Steps that have been written down stay. -/
theorem kept_steps (steps : List Step) : c.recorded.Kept fun r => steps <+: r.watcher where
  tell r step holds := by
    unfold Walk.tell
    split
    · exact holds.trans (List.prefix_append _ _)
    · exact holds
  mark _ _ holds := holds
  collect w id holds := by
    unfold Walk.collect
    split <;> exact holds
  drop _ _ holds := holds
  lose w holds := by
    unfold Walk.lose
    split <;> exact holds

/-- Who writes the steps down never has enough. -/
theorem kept_unstopped : c.recorded.Kept fun r => r.progress ≠ .stopped where
  tell r step holds := by
    unfold Walk.tell
    split <;> exact holds
  mark _ _ holds := holds
  collect w id holds := by
    unfold Walk.collect
    split <;> exact holds
  drop _ _ holds := holds
  lose w holds := by
    unfold Walk.lose
    split
    · exact fun stopped => Progress.noConfusion stopped
    · exact holds

end Course

/-! ## Walks that break off -/

/-- A walk against the walk of one who writes the steps down. They are at the same place and the
machine has taken all steps, or the machine has refused one of them and its walk has stopped. -/
inductive Behind (watch : Watcher τ) (start : τ) (w : Walk τ) (r : Walk (List Step)) : Prop
  | together (alike : Alike (fun s steps => feed watch start steps = (s, true)) w r)
  | stopped (refused : feed watch start r.watcher = (w.watcher, false))
      (ended : w.progress = .stopped)

/-- A choice that is made alike keeps a walk behind. -/
theorem Behind.ite {watch : Watcher τ} {start : τ} {b b' : Bool} (same : b = b') {w₁ w₂ : Walk τ}
    {r₁ r₂ : Walk (List Step)} (yes : Behind watch start w₁ r₁) (no : Behind watch start w₂ r₂) :
    Behind watch start (if b then w₁ else w₂) (if b' then r₁ else r₂) := by
  subst same
  cases b with
  | true => exact yes
  | false => exact no

namespace Course

variable (c : Course τ) {start : τ} {w : Walk τ} {r : Walk (List Step)}

/-- A part of two walks need only be looked at as long as they are together. -/
theorem behind_part {w' : Walk τ} {r' : Walk (List Step)} (part : c.Part w w')
    (part' : c.recorded.Part r r') (behind : Behind c.watch start w r)
    (together : Alike (fun s steps => feed c.watch start steps = (s, true)) w r →
      Behind c.watch start w' r') : Behind c.watch start w' r' := by
  cases behind with
  | together alike => exact together alike
  | stopped refused ended =>
    obtain ⟨same, still⟩ := part _ (c.kept_stopped w.watcher) ⟨rfl, ended⟩
    obtain ⟨more, longer⟩ := part' _ (c.kept_steps r.watcher) (List.prefix_refl _)
    refine .stopped ?_ still
    rw [← longer, same]
    exact feed_append_of_refused c.watch refused more

/-- Both take a step, or the machine refuses it. -/
theorem behind_tell (behind : Behind c.watch start w r) (step : Step) :
    Behind c.watch start (w.tell c.watch step) (r.tell Watcher.recorder step) := by
  refine c.behind_part (c.part_tell step w) (c.recorded.part_tell step r) behind fun alike => ?_
  unfold Walk.tell
  rw [alike.isGoing]
  by_cases going : r.isGoing = true
  · rw [if_pos going, if_pos going]
    have fed := feed_snoc_of_taken c.watch alike.watcher step
    rcases answer : c.watch w.watcher step with ⟨s, more⟩
    rw [answer] at fed
    cases more with
    | true => exact .together ⟨fed, alike.visited, alike.pending, alike.progress⟩
    | false => exact .stopped fed rfl
  · rw [if_neg going, if_neg going]
    exact .together alike

/-- A walk stays behind the recorded one when both cross an edge. -/
theorem behind_cross {enter : Node → Walk τ → Walk τ}
    {enter' : Node → Walk (List Step) → Walk (List Step)} (part : ∀ n w, c.Part w (enter n w))
    (part' : ∀ n r, c.recorded.Part r (enter' n r))
    (entering : ∀ n w r, Behind c.watch start w r → Behind c.watch start (enter n w) (enter' n r))
    (behind : Behind c.watch start w r) (e : Edge) :
    Behind c.watch start (c.cross enter w e) (c.recorded.cross enter' r e) := by
  refine c.behind_part (c.part_cross part e w) (c.recorded.part_cross part' e r) behind
    fun alike => ?_
  refine Behind.ite (congrArg (!· || c.plan.hides c.graph e.target) alike.isGoing)
    (.together alike) ?_
  unfold recorded watchedBy
  dsimp only
  cases c.graph.find? e.target with
  | none => exact .together alike
  | some target =>
    have collected := Alike.ite (b := c.plan.collects c.rooted e.kind target) rfl
      (alike.collect e.target) alike
    have told := c.behind_tell (.together collected) (.edge e)
    exact c.behind_tell (Behind.ite rfl (entering target _ _ told) told) (.endEdge e)

/-- A walk stays behind the recorded one when both enter a node. -/
theorem behind_enter (depth : Nat) (n : Node) (behind : Behind c.watch start w r) :
    Behind c.watch start (c.enter depth n w) (c.recorded.enter depth n r) := by
  induction depth generalizing n w r with
  | zero =>
    exact c.behind_part (c.part_enter 0 n w) (c.recorded.part_enter 0 n r) behind
      fun alike => .together alike.lose
  | succ depth ih =>
    refine c.behind_part (c.part_enter (depth + 1) n w)
      (c.recorded.part_enter (depth + 1) n r) behind fun alike => ?_
    have same : (!w.isGoing || (c.plan.safe && w.visited.contains n.id)) =
        (!r.isGoing || (c.plan.safe && r.visited.contains n.id)) := by
      rw [alike.isGoing, alike.visited]
    have marked := Alike.ite (b := c.plan.remembers) rfl (alike.mark n.id) alike
    have told := c.behind_tell (.together marked) (.enter n)
    have crossed := List.foldl_rel (l := n.edges) told fun e _ _ _ between =>
      c.behind_cross (c.part_enter depth) (c.recorded.part_enter depth)
        (fun m _ _ inner => ih m inner) between e
    exact Behind.ite same (.together alike) (c.behind_tell crossed (.leave n))

/-- A walk stays behind the recorded one when both enter a special node. -/
theorem behind_enterSpecial (limit : Nat) (n : Node) (behind : Behind c.watch start w r) :
    Behind c.watch start (c.enterSpecial limit w n) (c.recorded.enterSpecial limit r n) := by
  refine c.behind_part (c.part_enterSpecial limit n w)
    (c.recorded.part_enterSpecial limit n r) behind fun alike => ?_
  have same : (n.kind.isSpecial && !c.plan.hides c.graph n.id && !w.visited.contains n.id) =
      (n.kind.isSpecial && !c.plan.hides c.graph n.id && !r.visited.contains n.id) := by
    rw [alike.visited]
  exact Behind.ite same (c.behind_enter limit n behind) behind

/-- A walk stays behind the recorded one when both enter a collected node. -/
theorem behind_enterCollected (limit : Nat) (id : NodeId) (behind : Behind c.watch start w r) :
    Behind c.watch start (c.enterCollected limit w id) (c.recorded.enterCollected limit r id) := by
  refine c.behind_part (c.part_enterCollected limit id w)
    (c.recorded.part_enterCollected limit id r) behind fun alike => ?_
  have dropped := alike.drop id
  have same : ((w.drop id).visited.contains id || c.plan.hides c.graph id) =
      ((r.drop id).visited.contains id || c.plan.hides c.graph id) := by
    rw [dropped.visited]
  refine Behind.ite alike.isGoing (Behind.ite same (.together dropped) ?_) behind
  unfold recorded watchedBy
  dsimp only
  cases c.graph.find? id with
  | none => exact .together dropped
  | some n => exact c.behind_enter limit n (.together dropped)

/-- A walk stays behind the recorded one when both go over collected nodes. -/
theorem behind_finish (limit rounds : Nat) (behind : Behind c.watch start w r) :
    Behind c.watch start (c.finish limit rounds w) (c.recorded.finish limit rounds r) := by
  induction rounds generalizing w r with
  | zero =>
    exact c.behind_part (c.part_finish limit 0 w) (c.recorded.part_finish limit 0 r) behind
      fun alike => .together alike.lose
  | succ rounds ih =>
    refine c.behind_part (c.part_finish limit (rounds + 1) w)
      (c.recorded.part_finish limit (rounds + 1) r) behind fun alike => ?_
    have same : (!w.isGoing || w.pending.isEmpty) = (!r.isGoing || r.pending.isEmpty) := by
      rw [alike.isGoing, alike.pending]
    have round : Behind c.watch start (w.pending.toList.foldl (c.enterCollected limit) w)
        (r.pending.toList.foldl (c.recorded.enterCollected limit) r) := by
      rw [← alike.pending]
      exact List.foldl_rel behind fun id _ _ _ => c.behind_enterCollected limit id
    exact Behind.ite same behind (ih round)

/-- A walk is the walk of one who writes the steps down, up to the step that is refused. -/
theorem behind_run (limit : Nat) (root : Option Node) (behind : Behind c.watch start w r) :
    Behind c.watch start (c.run limit root w) (c.recorded.run limit root r) := by
  cases root with
  | none => exact List.foldl_rel behind fun n _ _ _ => c.behind_enter limit n
  | some n =>
    have entered := c.behind_enter limit n behind
    have special := List.foldl_rel (l := c.graph.nodeList) entered fun m _ _ _ =>
      c.behind_enterSpecial limit m
    have reached := Behind.ite (b := c.plan.special && !c.plan.usedOnly) rfl special entered
    exact Behind.ite rfl (c.behind_finish limit limit reached) reached

end Course

end Walk

namespace Graph

/-- The walk of one who writes the steps down. -/
def steps (g : Graph) (plan : WalkPlan) (root : Option Node) (patience : Nat) : Walk (List Step) :=
  g.walkFrom plan Watcher.recorder [] root patience

/-- Someone who writes the steps down never stops a walk. -/
theorem progress_steps (g : Graph) (plan : WalkPlan) (root : Option Node) (patience : Nat) :
    (g.steps plan root patience).progress ≠ .stopped :=
  Walk.Course.part_run ⟨g, plan, root.isSome, Watcher.recorder⟩ _ root _ _
    (Walk.Course.kept_unstopped ⟨g, plan, root.isSome, Watcher.recorder⟩)
    fun stopped => Progress.noConfusion stopped

/-- What a machine makes of a walk is what it makes of the list of its steps. -/
theorem walkFrom_behind (g : Graph) (plan : WalkPlan) (watch : Watcher τ) (start : τ)
    (root : Option Node) (patience : Nat) :
    Walk.Behind watch start (g.walkFrom plan watch start root patience)
      (g.steps plan root patience) :=
  Walk.Course.behind_run ⟨g, plan, root.isSome, watch⟩ _ root (.together ⟨rfl, rfl, rfl, rfl⟩)

end Graph

namespace Crew

variable (watch : Watcher σ)

/-- Whoever in a crew still watches takes a list of steps on its own. -/
def fed (steps : List Step) (crew : Crew σ) : Crew σ :=
  crew.map fun member => if member.2 then feed watch member.1 steps else member

/-- A crew takes the first step together and then the others. -/
theorem fed_cons (step : Step) (steps : List Step) (crew : Crew σ) :
    fed watch (step :: steps) crew = fed watch steps (Crew.watch watch crew step).1 := by
  unfold fed Crew.watch
  dsimp only
  rw [List.map_map]
  apply List.map_congr_left
  rintro ⟨s, watching⟩ _
  cases watching with
  | false => rfl
  | true =>
    rcases answer : watch s step with ⟨t, more⟩
    cases more <;> simp [feed, answer]

/-- A crew in which nobody watches takes no steps. -/
theorem fed_of_idle {crew : Crew σ} (idle : crew.isWatching = false) (steps : List Step) :
    fed watch steps crew = crew := by
  refine (List.map_congr_left fun member mem => ?_).trans (List.map_id crew)
  have stopped : ¬ member.2 = true := List.any_eq_false.1 idle member mem
  rw [if_neg stopped]
  rfl

/-- A crew takes a list of steps each on its own, and goes on as long as someone does. -/
theorem feed_watch (steps : List Step) (crew : Crew σ) (watching : crew.isWatching = true) :
    feed (Crew.watch watch) crew steps =
      (fed watch steps crew, (fed watch steps crew).isWatching) := by
  induction steps generalizing crew with
  | nil =>
    have same : fed watch [] crew = crew := by
      refine (List.map_congr_left fun member _ => ?_).trans (List.map_id crew)
      obtain ⟨s, watching⟩ := member
      cases watching <;> rfl
    rw [same, watching]
    rfl
  | cons step steps ih =>
    rw [fed_cons]
    have answer : Crew.watch watch crew step =
        ((Crew.watch watch crew step).1, (Crew.watch watch crew step).1.isWatching) := rfl
    generalize (Crew.watch watch crew step).1 = next at answer
    cases still : next.isWatching with
    | true =>
      rw [still] at answer
      rw [feed_cons_of_taken _ answer, ih next still]
    | false =>
      rw [still] at answer
      rw [feed_cons_of_refused _ answer, fed_of_idle watch still, still]

/-- A new crew takes steps as each of its members does. -/
theorem fed_ofList (steps : List Step) (states : List σ) :
    fed watch steps (ofList states) = states.map fun s => feed watch s steps := by
  unfold fed ofList
  rw [List.map_map]
  rfl

end Crew

namespace Graph

/-- What a crew sees of a walk: everyone takes the steps that were written down, each on its own.
The walk goes as far as these if anyone takes them all, and stops otherwise. -/
theorem walkFrom_crew (g : Graph) (plan : WalkPlan) (watch : Watcher σ) (states : List σ)
    (root : Option Node) (patience : Nat) :
    let r := g.steps plan root patience
    let w := g.walkFrom plan (Crew.watch watch) (Crew.ofList states) root patience
    w.watcher = (states.map fun s => feed watch s r.watcher) ∧
      (states ≠ [] → w.progress =
        if states.any fun s => (feed watch s r.watcher).2 then r.progress else .stopped) := by
  intro r w
  have behind : Walk.Behind (Crew.watch watch) (Crew.ofList states) w r :=
    g.walkFrom_behind plan _ _ root patience
  cases states with
  | nil =>
    have nobody : (feed (Crew.watch watch) [] r.watcher).1 = [] := by
      cases r.watcher <;> rfl
    refine ⟨?_, fun some => absurd rfl some⟩
    cases behind with
    | together alike => exact (congrArg Prod.fst alike.watcher).symm.trans nobody
    | stopped refused _ => exact (congrArg Prod.fst refused).symm.trans nobody
  | cons s others =>
    have fed := Crew.feed_watch watch r.watcher (Crew.ofList (s :: others)) rfl
    rw [Crew.fed_ofList, Crew.isWatching, List.any_map] at fed
    cases behind with
    | together alike =>
      obtain ⟨states, watching⟩ := Prod.mk.inj (fed.symm.trans alike.watcher)
      exact ⟨states.symm, fun _ => alike.progress.trans (if_pos watching).symm⟩
    | stopped refused ended =>
      obtain ⟨states, watching⟩ := Prod.mk.inj (fed.symm.trans refused)
      exact ⟨states.symm, fun _ => ended.trans (if_neg (Bool.eq_false_iff.1 watching)).symm⟩

end Graph

end CodeGraph
