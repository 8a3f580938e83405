import CodeGraph.Proofs.IdSets
import CodeGraph.Proofs.NodeTable
import Mathlib.Algebra.BigOperators.Group.Finset.Basic
import Mathlib.Logic.Relation

/-!
# What containment reaches

The subtree of an id is found with a stack: an id that is met for the first time is listed, and its
children go on the stack. Each id pays for its own children, so the rounds that are left always
cover the stack and the children of the ids that have not been met, and the search does not end
before the stack is empty. Main statements: `searchEnds_subtree`, the search without a bound on its
rounds ends, and with the subtree; and `mem_subtree_iff`, the subtree lists exactly the ids that
containment edges reach. Both hold for every table of nodes, with cycles, shared children and holes
or without.
-/

set_option autoImplicit false

namespace CodeGraph

open Relation

namespace NodeTable

variable (t : NodeTable)

/-- Containment edges lead from one id to another, in any number of steps. -/
def Reaches : NodeId → NodeId → Prop :=
  ReflTransGen fun p x => x ∈ t.children p

/-- The ids that the node at a position contains. -/
def childrenAt (i : Nat) : List NodeId :=
  (t.items[i]?.join).elim [] Node.children

/-- The children of an id are those of the node at its position. -/
theorem children_eq (id : NodeId) : t.children id = t.childrenAt id.index := by
  unfold children childrenAt find? IdTable.get IdTable.get? table
  cases t.items[id.index]? with
  | none => rfl
  | some n? => cases n? <;> rfl

/-! ## Rounds -/

/-- The children of the nodes that a search has not met. -/
def unmet (seen : IdSet) : Nat :=
  ∑ i ∈ Finset.range t.size, if seen.marks[i]? = some true then 0 else (t.childrenAt i).length

/-- Every containment edge belongs to the node at one position. -/
theorem containmentCount_eq :
    t.containmentCount = ∑ i ∈ Finset.range t.size, (t.childrenAt i).length := by
  have counted : ∀ items : List (Option Node),
      ((items.filterMap fun n? => n?).flatMap Node.children).length =
        ∑ i ∈ Finset.range items.length, ((items[i]?.join).elim [] Node.children).length := by
    intro items
    induction items with
    | nil => rfl
    | cons n? items ih =>
      rw [List.length_cons, Finset.sum_range_succ']
      simp only [List.getElem?_cons_succ, List.getElem?_cons_zero]
      rw [← ih]
      cases n? with
      | none => simp
      | some n => simp [Nat.add_comm]
  unfold containmentCount toList size childrenAt
  rw [counted, Array.length_toList]
  simp only [Array.getElem?_toList]

/-- A search that has met nothing has all containment edges before it. -/
theorem unmet_empty : t.unmet .empty = t.containmentCount := by
  rw [containmentCount_eq]
  unfold unmet
  refine Finset.sum_congr rfl fun i _ => if_neg ?_
  simp [IdSet.empty]

/-- Meeting an id takes its children out of the account. -/
theorem unmet_insert {seen : IdSet} {id : NodeId} (new : seen.contains id = false) :
    t.unmet (seen.insert id) + (t.children id).length = t.unmet seen := by
  have unmarked : ¬ seen.marks[id.index]? = some true := by
    rw [← IdSet.contains_iff, new]
    exact Bool.false_ne_true
  unfold unmet
  rw [children_eq]
  by_cases inside : id.index ∈ Finset.range t.size
  · rw [← Finset.add_sum_erase _ _ inside, ← Finset.add_sum_erase _ _ inside, if_neg unmarked,
      if_pos ((seen.marks_insert id _).2 (Or.inl rfl))]
    -- at all other positions the marks are the same
    have others : ∀ i ∈ (Finset.range t.size).erase id.index,
        (if (seen.insert id).marks[i]? = some true then 0 else (t.childrenAt i).length) =
          if seen.marks[i]? = some true then 0 else (t.childrenAt i).length := by
      intro i mem
      have different := Finset.ne_of_mem_erase mem
      simp only [IdSet.marks_insert, different, false_or]
    rw [Finset.sum_congr rfl others]
    omega
  · have beyond : t.items[id.index]? = none :=
      Array.getElem?_eq_none (Nat.le_of_not_lt fun less => inside (Finset.mem_range.2 less))
    have nothing : t.childrenAt id.index = [] := by
      unfold childrenAt
      rw [beyond]
      rfl
    rw [nothing, List.length_nil, Nat.add_zero]
    refine Finset.sum_congr rfl fun i mem => ?_
    have different : i ≠ id.index := fun same => inside (same ▸ mem)
    simp only [IdSet.marks_insert, different, false_or]

/-! ## The search -/

/-- What a search adds to the ids it has found already when it goes through its stack. -/
structure Searched (stack found result : List NodeId) : Prop where
  /-- Nothing is forgotten. -/
  kept : found ⊆ result
  /-- The whole stack is found. -/
  taken : stack ⊆ result
  /-- All that is new is reached from the stack. -/
  reached : ∀ x ∈ result, x ∈ found ∨ ∃ s ∈ stack, t.Reaches s x
  /-- With all that is new its children are found. -/
  closed : ∀ x ∈ result, x ∈ found ∨ t.children x ⊆ result

variable {t}

/-- A search with nothing on its stack finds nothing more. -/
theorem searched_nil (found : List NodeId) : t.Searched [] found found :=
  ⟨List.Subset.refl _, List.nil_subset _, fun _ mem => Or.inl mem, fun _ mem => Or.inl mem⟩

/-- An id that was met before changes nothing. -/
theorem Searched.again {id : NodeId} {stack found result : List NodeId}
    (searched : t.Searched stack found result) (known : id ∈ found) :
    t.Searched (id :: stack) found result where
  kept := searched.kept
  taken := List.cons_subset.2 ⟨searched.kept known, searched.taken⟩
  reached x mem := by
    rcases searched.reached x mem with old | ⟨s, waits, path⟩
    · exact Or.inl old
    · exact Or.inr ⟨s, List.mem_cons_of_mem id waits, path⟩
  closed := searched.closed

/-- An id that is met for the first time is found, and its children with it. -/
theorem Searched.first {id : NodeId} {stack found result : List NodeId}
    (searched : t.Searched (t.children id ++ stack) (id :: found) result) :
    t.Searched (id :: stack) found result := by
  obtain ⟨here, kept⟩ := List.cons_subset.1 searched.kept
  obtain ⟨below, taken⟩ := List.append_subset.1 searched.taken
  refine ⟨kept, List.cons_subset.2 ⟨here, taken⟩, fun x mem => ?_, fun x mem => ?_⟩
  · rcases searched.reached x mem with old | ⟨s, waits, path⟩
    · rcases List.mem_cons.1 old with rfl | old
      · exact Or.inr ⟨x, List.mem_cons_self, .refl⟩
      · exact Or.inl old
    · rcases List.mem_append.1 waits with child | waits
      · exact Or.inr ⟨id, List.mem_cons_self, .head child path⟩
      · exact Or.inr ⟨s, List.mem_cons_of_mem id waits, path⟩
  · rcases searched.closed x mem with old | all
    · rcases List.mem_cons.1 old with rfl | old
      · exact Or.inr below
      · exact Or.inl old
    · exact Or.inr all

/-- A search that comes to its end by itself, with what it has found then. No rounds are counted here,
so a search that goes on for ever has no end. -/
inductive SearchEnds (t : NodeTable) : List NodeId → IdSet → List NodeId → List NodeId → Prop
  /-- Nothing is left on the stack. -/
  | done {seen : IdSet} {found : List NodeId} : SearchEnds t [] seen found found
  /-- An id that was met before is passed by. -/
  | again {id : NodeId} {stack found result : List NodeId} {seen : IdSet}
      (known : seen.contains id = true) (rest : SearchEnds t stack seen found result) :
      SearchEnds t (id :: stack) seen found result
  /-- An id that is met for the first time is listed, and its children go on the stack. -/
  | first {id : NodeId} {stack found result : List NodeId} {seen : IdSet}
      (new : seen.contains id = false)
      (rest : SearchEnds t (t.children id ++ stack) (seen.insert id) (id :: found) result) :
      SearchEnds t (id :: stack) seen found result

/-- A search with enough rounds comes to its end by itself. -/
theorem searchEnds_reachRounds (rounds : Nat) (stack : List NodeId) (seen : IdSet)
    (found : List NodeId) (enough : stack.length + t.unmet seen ≤ rounds) :
    t.SearchEnds stack seen found (t.reachRounds rounds stack seen found) := by
  induction rounds generalizing stack seen found with
  | zero =>
    obtain rfl : stack = [] := List.length_eq_zero_iff.1 (by omega)
    exact .done
  | succ rounds ih =>
    cases stack with
    | nil => exact .done
    | cons id stack =>
      rw [List.length_cons] at enough
      unfold reachRounds
      by_cases known : seen.contains id = true
      · rw [if_pos known]
        exact .again known (ih stack seen found (by omega))
      · rw [if_neg known]
        have new := Bool.eq_false_iff.2 known
        have paid := t.unmet_insert new
        refine .first new (ih _ _ _ ?_)
        rw [List.length_append]
        omega

/-- A search that comes to its end has gone through its whole stack. -/
theorem SearchEnds.searched {stack found result : List NodeId} {seen : IdSet}
    (ends : t.SearchEnds stack seen found result)
    (same : ∀ id, seen.contains id = true ↔ id ∈ found) : t.Searched stack found result := by
  induction ends with
  | done => exact searched_nil _
  | again known _ ih => exact (ih same).again ((same _).1 known)
  | first _ _ ih =>
    refine (ih fun x => ?_).first
    rw [IdSet.contains_insert, Bool.or_eq_true, beq_iff_eq, List.mem_cons, same]

/-- The search for the subtree of an id comes to its end. -/
theorem searchEnds_subtree (t : NodeTable) (id : NodeId) :
    t.SearchEnds [id] .empty [] (t.subtree id) := by
  refine searchEnds_reachRounds _ [id] .empty [] ?_
  rw [unmet_empty, List.length_singleton]
  omega

/-- The subtree of an id lists exactly the ids that containment edges reach from it. -/
theorem mem_subtree_iff (t : NodeTable) (id x : NodeId) :
    x ∈ t.subtree id ↔ t.Reaches id x := by
  have nothing : ∀ id, IdSet.empty.contains id = true ↔ id ∈ ([] : List NodeId) := by
    simp
  have searched : t.Searched [id] [] (t.subtree id) := (t.searchEnds_subtree id).searched nothing
  constructor
  · intro mem
    rcases searched.reached x mem with absurd | ⟨s, start, path⟩
    · cases absurd
    · rw [List.mem_singleton.1 start] at path
      exact path
  · intro path
    induction path with
    | refl => exact searched.taken List.mem_cons_self
    | tail _ child ih =>
      rcases searched.closed _ ih with absurd | all
      · cases absurd
      · exact all child

end NodeTable

end CodeGraph
