import CodeGraph.Proofs.VisitorEvents

/-!
# The limit of a walk

The limit is there for walks that have no end of their own. A walk that does not get lost has not
felt its limit: with a higher one it goes the same way, step by step. So the walk ends by itself,
and its end does not depend on how patient it is. Main statement: `Graph.endsIn_of_found`, whose
`EndsIn` says this of the walk of visitors, with and without a list of what they hear.
-/

set_option autoImplicit false

namespace CodeGraph

variable {σ τ α : Type}

namespace Walk

namespace Course

variable (c : Course τ)

/-- A walk that is lost stays lost. -/
theorem kept_lost : c.Kept fun w => w.progress = .lost where
  tell w step lost := by
    unfold Walk.tell Walk.isGoing
    rw [lost]
    exact lost
  mark _ _ lost := lost
  collect w id lost := by
    unfold Walk.collect
    split <;> exact lost
  drop _ _ lost := lost
  lose w lost := by
    unfold Walk.lose
    split
    · rfl
    · exact lost

/-- A walk that is lost stays lost whatever parts follow. -/
theorem lost_foldl {f : Walk τ → α → Walk τ} (part : ∀ x w, c.Part w (f w x)) (xs : List α)
    {w : Walk τ} (lost : w.progress = .lost) : (xs.foldl f w).progress = .lost :=
  List.foldlRecOn (motive := fun w : Walk τ => w.progress = .lost) xs f lost
    fun v lost x _ => part x v _ c.kept_lost lost

/-- Parts of a walk that go the same way whenever they are not lost do so one after the other. -/
theorem foldl_eq_of_found {f f' : Walk τ → α → Walk τ} (part : ∀ x w, c.Part w (f w x))
    (same : ∀ x w, (f w x).progress ≠ .lost → f' w x = f w x) (xs : List α) {w : Walk τ}
    (found : (xs.foldl f w).progress ≠ .lost) : xs.foldl f' w = xs.foldl f w := by
  induction xs generalizing w with
  | nil => rfl
  | cons x xs ih =>
    have first : (f w x).progress ≠ .lost := fun lost => found (c.lost_foldl part xs lost)
    rw [List.foldl_cons, List.foldl_cons, same x w first]
    exact ih found

/-- A walk passes by an edge if it has ended, or if the edge leads to a hidden or a missing node. -/
def Passes (w : Walk τ) (e : Edge) : Prop :=
  w.isGoing = false ∨ c.plan.hides c.graph e.target = true ∨ c.graph.find? e.target = none

/-- A walk meets a node at the end of an edge. -/
structure Meets (w : Walk τ) (e : Edge) (t : Node) : Prop where
  going : w.isGoing = true
  shown : c.plan.hides c.graph e.target = false
  found : c.graph.find? e.target = some t

/-- A walk passes by an edge or meets a node at its end. -/
theorem passes_or_meets (w : Walk τ) (e : Edge) : c.Passes w e ∨ ∃ t, c.Meets w e t := by
  unfold Passes
  cases going : w.isGoing with
  | false => exact Or.inl (Or.inl rfl)
  | true =>
    cases shown : c.plan.hides c.graph e.target with
    | true => exact Or.inl (Or.inr (Or.inl rfl))
    | false =>
      cases found : c.graph.find? e.target with
      | none => exact Or.inl (Or.inr (Or.inr rfl))
      | some t => exact Or.inr ⟨t, going, shown, found⟩

/-- An edge that is passed by changes nothing. -/
theorem cross_of_passes {enter : Node → Walk τ → Walk τ} {w : Walk τ} {e : Edge}
    (passed : c.Passes w e) : c.cross enter w e = w := by
  unfold cross
  rcases passed with idle | hidden | missing
  · simp only [idle, Bool.not_false, Bool.true_or, if_true]
  · simp only [hidden, Bool.or_true, if_true]
  · simp only [missing, ite_self]

/-- An edge at whose end a node is met is reported, and the node is collected and entered if the
plan asks for it. -/
theorem cross_of_meets {enter : Node → Walk τ → Walk τ} {w : Walk τ} {e : Edge} {t : Node}
    (meets : c.Meets w e t) :
    c.cross enter w e =
      let w := if c.plan.collects c.rooted e.kind t then w.collect e.target else w
      let w := w.tell c.watch (.edge e)
      let w := if c.plan.follows c.rooted e.kind t then enter t w else w
      w.tell c.watch (.endEdge e) := by
  unfold cross
  simp only [meets.going, meets.shown, meets.found, Bool.not_true, Bool.or_self,
    Bool.false_eq_true, if_false]

/-- Crossing an edge is the same with more patience, unless it gets lost. -/
theorem cross_eq_of_found {enter enter' : Node → Walk τ → Walk τ}
    (same : ∀ n w, (enter n w).progress ≠ .lost → enter' n w = enter n w) (e : Edge) (w : Walk τ)
    (found : (c.cross enter w e).progress ≠ .lost) : c.cross enter' w e = c.cross enter w e := by
  rcases c.passes_or_meets w e with passes | ⟨t, meets⟩
  · rw [c.cross_of_passes passes, c.cross_of_passes passes]
  · rw [c.cross_of_meets meets] at found ⊢
    rw [c.cross_of_meets meets]
    dsimp only at found ⊢
    split at found
    · next follows =>
      rw [if_pos follows, if_pos follows, same]
      exact fun lost => found (c.kept_lost.tell _ _ lost)
    · next passes => rw [if_neg passes, if_neg passes]

/-- A walk that has ended enters nothing. -/
theorem enter_of_ended {w : Walk τ} (ended : w.isGoing = false) (depth : Nat) (n : Node) :
    c.enter depth n w = w := by
  cases depth with
  | zero =>
    unfold enter Walk.lose
    rw [if_neg (Bool.eq_false_iff.1 ended)]
  | succ depth =>
    unfold enter
    rw [ended]
    rfl

/-- What a walk does at a node that it may enter. -/
theorem enter_of_going {w : Walk τ} {n : Node} (going : w.isGoing = true)
    (new : (c.plan.safe && w.visited.contains n.id) = false) (depth : Nat) :
    c.enter (depth + 1) n w =
      let w := if c.plan.remembers then w.mark n.id else w
      let w := w.tell c.watch (.enter n)
      let w := n.edges.foldl (c.cross (c.enter depth)) w
      w.tell c.watch (.leave n) := by
  unfold enter
  rw [going, new]
  rfl

/-- Entering a node is the same with more room below it, if it is not lost. -/
theorem enter_eq_of_found {depth more : Nat} (le : depth ≤ more) (n : Node) (w : Walk τ)
    (found : (c.enter depth n w).progress ≠ .lost) : c.enter more n w = c.enter depth n w := by
  induction depth generalizing more n w with
  | zero =>
    have idle : w.isGoing = false := by
      rw [Bool.eq_false_iff]
      intro going
      apply found
      unfold enter Walk.lose
      rw [if_pos going]
    rw [c.enter_of_ended idle, c.enter_of_ended idle]
  | succ depth ih =>
    cases more with
    | zero => omega
    | succ more =>
      unfold enter at found ⊢
      split at found
      · next stays => rw [if_pos stays, if_pos stays]
      · next goes =>
        rw [if_neg goes, if_neg goes]
        dsimp only at found ⊢
        have inside := fun lost => found (c.kept_lost.tell _ (.leave n) lost)
        rw [c.foldl_eq_of_found (c.part_cross (c.part_enter depth))
          (c.cross_eq_of_found (ih (by omega))) n.edges inside]

variable {depth more : Nat} (le : depth ≤ more)

include le

/-- Entering a special node is the same with more patience, unless it gets lost. -/
theorem enterSpecial_eq_of_found (n : Node) (w : Walk τ)
    (found : (c.enterSpecial depth w n).progress ≠ .lost) :
    c.enterSpecial more w n = c.enterSpecial depth w n := by
  unfold enterSpecial at found ⊢
  split at found
  · next enters =>
    rw [if_pos enters, if_pos enters]
    exact c.enter_eq_of_found le n w found
  · next passes => rw [if_neg passes, if_neg passes]

/-- Entering a collected node is the same with more patience, unless it gets lost. -/
theorem enterCollected_eq_of_found (id : NodeId) (w : Walk τ)
    (found : (c.enterCollected depth w id).progress ≠ .lost) :
    c.enterCollected more w id = c.enterCollected depth w id := by
  unfold enterCollected at found ⊢
  split at found
  · next going =>
    rw [if_pos going, if_pos going]
    dsimp only at found ⊢
    split at found
    · next passes => rw [if_pos passes, if_pos passes]
    · next enters =>
      rw [if_neg enters, if_neg enters]
      cases there : c.graph.find? id with
      | none => rfl
      | some n =>
        simp only [there] at found ⊢
        exact c.enter_eq_of_found le n _ found
  · next idle => rw [if_neg idle, if_neg idle]

/-- The rounds over collected nodes are the same with more of them, if they are not lost. -/
theorem finish_eq_of_found {rounds others : Nat} (fewer : rounds ≤ others) (w : Walk τ)
    (found : (c.finish depth rounds w).progress ≠ .lost) :
    c.finish more others w = c.finish depth rounds w := by
  induction rounds generalizing others w with
  | zero =>
    have idle : ¬ w.isGoing = true := by
      intro going
      apply found
      unfold finish Walk.lose
      rw [if_pos going]
    have stays : w.lose = w := if_neg idle
    have guard : (!w.isGoing || w.pending.isEmpty) = true := by
      rw [Bool.eq_false_iff.2 idle]
      rfl
    cases others with
    | zero => rfl
    | succ others =>
      unfold finish
      rw [if_pos guard, stays]
  | succ rounds ih =>
    cases others with
    | zero => omega
    | succ others =>
      unfold finish at found ⊢
      split at found
      · next stays => rw [if_pos stays, if_pos stays]
      · next goes =>
        rw [if_neg goes, if_neg goes]
        have round := fun lost => found (c.part_finish depth rounds _ _ c.kept_lost lost)
        rw [c.foldl_eq_of_found (c.part_enterCollected depth)
          (c.enterCollected_eq_of_found le) _ round]
        exact ih (by omega) _ found

/-- A walk that is not lost is the same with a higher limit. -/
theorem run_eq_of_found (root : Option Node) (w : Walk τ)
    (found : (c.run depth root w).progress ≠ .lost) : c.run more root w = c.run depth root w := by
  cases root with
  | none =>
    exact c.foldl_eq_of_found (c.part_enter depth)
      (c.enter_eq_of_found le) c.starts found
  | some n =>
    have special : ∀ v : Walk τ,
        (c.graph.nodeList.foldl (c.enterSpecial depth) v).progress ≠ .lost →
        c.graph.nodeList.foldl (c.enterSpecial more) v =
          c.graph.nodeList.foldl (c.enterSpecial depth) v := fun v =>
      c.foldl_eq_of_found (c.part_enterSpecial depth)
        (c.enterSpecial_eq_of_found le) c.graph.nodeList
    -- what comes later cannot make up for what is lost
    have reached : ((if c.plan.special && !c.plan.usedOnly then
        c.graph.nodeList.foldl (c.enterSpecial depth) (c.enter depth n w)
        else c.enter depth n w)).progress ≠ .lost := by
      intro lost
      apply found
      unfold run
      dsimp only
      split
      · exact c.part_finish depth depth _ _ c.kept_lost lost
      · exact lost
    have entered : (c.enter depth n w).progress ≠ .lost := by
      intro lost
      apply reached
      split
      · exact c.lost_foldl (c.part_enterSpecial depth) c.graph.nodeList lost
      · exact lost
    have same : (if c.plan.special && !c.plan.usedOnly then
        c.graph.nodeList.foldl (c.enterSpecial more) (c.enter more n w) else c.enter more n w) =
        if c.plan.special && !c.plan.usedOnly then
        c.graph.nodeList.foldl (c.enterSpecial depth) (c.enter depth n w)
        else c.enter depth n w := by
      rw [c.enter_eq_of_found le n w entered]
      split at reached
      · next passes => rw [if_pos passes, if_pos passes, special _ reached]
      · next skips => rw [if_neg skips, if_neg skips]
    unfold run at found ⊢
    dsimp only at found ⊢
    rw [same]
    split at found
    · next passes =>
      rw [if_pos passes, if_pos passes]
      exact c.finish_eq_of_found le le _ found
    · next skips => rw [if_neg skips, if_neg skips]

end Course

end Walk

namespace Graph

/-- A walk that is not lost is the same with more patience. -/
theorem walkFrom_eq_of_found {g : Graph} {plan : WalkPlan} {watch : Watcher τ} {start : τ}
    {root : Option Node} {patience more : Nat} (le : patience ≤ more)
    (found : (g.walkFrom plan watch start root patience).progress ≠ .lost) :
    g.walkFrom plan watch start root more = g.walkFrom plan watch start root patience :=
  Walk.Course.run_eq_of_found ⟨g, plan, root.isSome, watch⟩ (by omega) root _ found

/-- Whoever watches, a walk is not lost if it is not lost for one who writes the steps down. -/
theorem walkFrom_found {g : Graph} {plan : WalkPlan} {root : Option Node} {patience : Nat}
    (found : (g.steps plan root patience).progress ≠ .lost) (watch : Watcher τ) (start : τ) :
    (g.walkFrom plan watch start root patience).progress ≠ .lost := by
  cases g.walkFrom_behind plan watch start root patience with
  | together alike =>
    rw [alike.progress]
    exact found
  | stopped _ ended =>
    rw [ended]
    exact fun same => Progress.noConfusion same

/-- The walk of visitors ends by itself, however patient it is: with lists of what they hear it ends
as `run` says, and without them it ends with the visitors in the same states. -/
structure EndsIn (g : Graph) (plan : WalkPlan) (v : Visitor σ) (states : List σ)
    (root : Option NodeId) (run : Walk (Crew (σ × List Event))) : Prop where
  recorded : ∀ patience,
    g.walkWith plan v.recording.watch (states.map fun s => (s, [])) root patience = .ok run
  found : run.progress ≠ .lost
  plain : ∃ walk, (∀ patience, g.walkWith plan v.watch states root patience = .ok walk) ∧
    walk.progress ≠ .lost ∧ walk.watcher = run.watcher.map fun member => (member.1.1, member.2)

/-- Visitors see the end of a walk that is not lost for one who writes the steps down, and everyone
has heard the events of those steps until it had enough. -/
theorem endsIn_of_found {g : Graph} {plan : WalkPlan} {root : Option NodeId}
    {origin : Option Node}
    (starts : ∀ {υ : Type} (watch : Watcher υ) (start : υ) (patience : Nat),
      g.walk plan watch start root patience = .ok (g.walkFrom plan watch start origin patience))
    (found : (g.steps plan origin 0).progress ≠ .lost) (v : Visitor σ) (states : List σ) :
    let r := g.steps plan origin 0
    let run := g.walkFrom plan (Crew.watch v.recording.watch)
      (Crew.ofList (states.map fun s => (s, []))) origin 0
    g.EndsIn plan v states root run ∧
      run.watcher = states.map fun s => (((feed v.watch s r.watcher).1,
        given v.hear s (Step.allEvents r.watcher)), (feed v.watch s r.watcher).2) := by
  intro r run
  have unlimited : ∀ {υ : Type} (watch : Watcher υ) (start : υ) (patience : Nat),
      g.walk plan watch start root patience = .ok (g.walkFrom plan watch start origin 0) := by
    intro υ watch start patience
    rw [starts, walkFrom_eq_of_found (Nat.zero_le patience) (walkFrom_found found watch start)]
  obtain ⟨told, -⟩ := g.walkFrom_recording plan v states origin 0
  obtain ⟨plain, -⟩ := g.walkFrom_crew plan v.watch states origin 0
  refine ⟨⟨unlimited _ _, walkFrom_found found _ _, _, unlimited _ _,
    walkFrom_found found _ _, ?_⟩, told⟩
  rw [plain, told, List.map_map]
  rfl

/-- A visitor that has not had enough has heard all events. -/
theorem given_of_watching {v : Visitor σ} {s : σ} {steps : List Step}
    (watching : (feed v.watch s steps).2 = true) :
    given v.hear s (Step.allEvents steps) = Step.allEvents steps := by
  rw [v.feed_watch] at watching
  exact given_of_taken v.hear watching

end Graph

end CodeGraph
