import CodeGraph.Proofs.NodeTable

/-!
# Members and marks

A set of ids is a list of marks, one for each position. A set is clean if no mark stands where no id
belongs; then its list of members is exact, and it is empty when it has no members. Main statements:
`contains_iff`, which mark tells of an id, and `Clean.mem_toList_iff`.
-/

set_option autoImplicit false

namespace CodeGraph

namespace IdSet

/-- Every mark is that of an id. -/
def Clean (s : IdSet) : Prop :=
  ∀ i : Nat, s.marks[i]? = some true → ∃ id : NodeId, id.index = i

/-- The empty set is clean. -/
theorem clean_empty : empty.Clean := by
  intro i marked
  simp [empty] at marked

/-- Inserting an id keeps a set clean. -/
theorem Clean.insert {s : IdSet} (clean : s.Clean) (id : NodeId) : (s.insert id).Clean := by
  intro i marked
  unfold IdSet.insert at marked
  rw [IdTable.getElem?_set] at marked
  split at marked
  · next here => exact ⟨id, here.symm⟩
  · split at marked
    · exact clean i marked
    · split at marked <;> cases marked

/-- Erasing an id keeps a set clean. -/
theorem Clean.erase {s : IdSet} (clean : s.Clean) (id : NodeId) : (s.erase id).Clean := by
  intro i marked
  unfold IdSet.erase at marked
  rw [Array.getElem?_setIfInBounds] at marked
  split at marked
  · split at marked <;> cases marked
  · exact clean i marked

/-- A position is marked if it has a mark that is set. -/
theorem marked_iff (s : IdSet) (i : Nat) :
    s.marks[i]?.getD false = true ↔ s.marks[i]? = some true := by
  cases s.marks[i]? <;> simp

/-- A set has an id if the mark at its index is set. -/
theorem contains_iff (s : IdSet) (id : NodeId) :
    s.contains id = true ↔ s.marks[id.index]? = some true :=
  s.marked_iff id.index

/-- One more member is one more mark. -/
theorem marks_insert (s : IdSet) (id : NodeId) (i : Nat) :
    (s.insert id).marks[i]? = some true ↔ i = id.index ∨ s.marks[i]? = some true := by
  unfold insert
  rw [IdTable.getElem?_set]
  by_cases here : i = id.index
  · simp [here]
  · rw [if_neg here]
    by_cases inside : i < s.table.size
    · rw [if_pos inside]
      simp [here, table]
    · have beyond : s.marks[i]? = none := Array.getElem?_eq_none (Nat.le_of_not_lt inside)
      rw [if_neg inside, beyond]
      split <;> simp [here, table]

/-- What is listed for a position is the id there, if it is marked. -/
theorem Clean.listed_iff {s : IdSet} (clean : s.Clean) (i : Nat) (id : NodeId) :
    (if s.marks[i]?.getD false then NodeId.ofIndex? i else none) = some id ↔
      s.marks[i]? = some true ∧ id.index = i := by
  constructor
  · intro named
    split at named
    · next set =>
      have marked := (s.marked_iff i).1 set
      obtain ⟨own, rfl⟩ := clean i marked
      rw [NodeId.ofIndex?_index] at named
      cases named
      exact ⟨marked, rfl⟩
    · cases named
  · rintro ⟨marked, rfl⟩
    rw [marked]
    exact NodeId.ofIndex?_index id

/-- The members of a clean set are listed. -/
theorem Clean.mem_toList_iff {s : IdSet} (clean : s.Clean) (id : NodeId) :
    id ∈ s.toList ↔ s.contains id = true := by
  unfold toList
  rw [List.mem_filterMap, contains_iff]
  simp only [clean.listed_iff]
  constructor
  · rintro ⟨i, -, marked, rfl⟩
    exact marked
  · intro marked
    exact ⟨id.index, List.mem_range.2 (Array.getElem?_eq_some_iff.1 marked).1, marked, rfl⟩

/-- A set in which no mark is set has no ids. -/
theorem contains_of_isEmpty {s : IdSet} (nothing : s.isEmpty = true) (id : NodeId) :
    s.contains id = false := by
  rw [Bool.eq_false_iff]
  intro member
  obtain ⟨inside, marked⟩ := Array.getElem?_eq_some_iff.1 ((s.contains_iff id).1 member)
  have unmarked := (Array.all_eq_true.1 nothing) id.index inside
  rw [marked] at unmarked
  cases unmarked

/-- A clean set without members has no marks. -/
theorem Clean.isEmpty {s : IdSet} (clean : s.Clean) (nothing : ∀ id, s.contains id = false) :
    s.isEmpty = true := by
  unfold IdSet.isEmpty
  rw [Array.all_eq_true]
  intro i inside
  cases marked : s.marks[i] with
  | false => rfl
  | true =>
    obtain ⟨id, here⟩ := clean i (by rw [Array.getElem?_eq_getElem inside, marked])
    have member := (s.contains_iff id).2 (by rw [here, Array.getElem?_eq_getElem inside, marked])
    rw [nothing id] at member
    cases member

end IdSet

end CodeGraph
