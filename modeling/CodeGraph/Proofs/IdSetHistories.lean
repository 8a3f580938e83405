import CodeGraph.Proofs.IdSets
import Mathlib.Data.Set.Card

/-!
# Histories of a set of ids

A set of ids starts without members, with or without room, and ids are added and taken out one by one
or all at once. Whatever was done to it, an id is a member exactly if the last time it was added was
neither followed by its removal nor by a clearing. The mark at position zero is never set, and no mark
beyond the last id, so the list of members, their number and the test for emptiness all tell the same
members. Main statement: `IdSet.members_after`.
-/

set_option autoImplicit false

namespace CodeGraph

namespace IdSet

/-- Something that is done to a set. -/
inductive Change
  | add (id : NodeId)
  | remove (id : NodeId)
  | clear
deriving DecidableEq

/-- The set after a change. -/
def Change.perform (s : IdSet) : Change → IdSet
  | .add id => (s.add id).2
  | .remove id => s.erase id
  | .clear => s.clear

/-- The set after several changes. -/
def after (s : IdSet) (changes : List Change) : IdSet :=
  changes.foldl Change.perform s

/-- A set without members, with room for the ids below a number if one is given. -/
def fresh (room? : Option Nat) : IdSet :=
  room?.elim empty withRoom

/-- The last time an id was added was neither followed by its removal nor by a clearing. -/
def Kept (changes : List Change) (id : NodeId) : Prop :=
  ∃ before later, changes = before ++ .add id :: later ∧
    .add id ∉ later ∧ .remove id ∉ later ∧ .clear ∉ later

variable {s : IdSet}

/-! ## Members -/

/-- After a change, a set has the id that was added, and those that it had and that were not
removed. -/
theorem contains_perform (s : IdSet) (change : Change) (id : NodeId) :
    (change.perform s).contains id = true ↔
      change = .add id ∨ s.contains id = true ∧ change ≠ .remove id ∧ change ≠ .clear := by
  cases change with
  | add other =>
    rw [Change.perform, add_eq, contains_insert, Bool.or_eq_true, beq_iff_eq]
    simp [@eq_comm _ id other]
  | remove other =>
    rw [Change.perform, contains_erase, Bool.and_eq_true, bne_iff_ne]
    simp [@eq_comm _ id other, and_comm]
  | clear => simp [Change.perform]

/-- What is kept after one more change, told in the way of `contains_perform`. -/
theorem kept_concat (changes : List Change) (change : Change) (id : NodeId) :
    Kept (changes ++ [change]) id ↔
      change = .add id ∨ Kept changes id ∧ change ≠ .remove id ∧ change ≠ .clear := by
  constructor
  · rintro ⟨before, later, split, unadded, unremoved, uncleared⟩
    -- The change is either the addition itself or the last of those that follow it.
    rcases List.eq_nil_or_concat' later with rfl | ⟨others, last, rfl⟩
    · exact Or.inl (List.singleton_inj.1 (List.append_inj' split rfl).2)
    · rw [← List.cons_append, ← List.append_assoc] at split
      obtain ⟨same, ended⟩ := List.append_inj' split rfl
      cases List.singleton_inj.1 ended
      simp only [List.mem_append, List.mem_singleton, not_or] at unadded unremoved uncleared
      exact Or.inr ⟨⟨before, others, same, unadded.1, unremoved.1, uncleared.1⟩,
        Ne.symm unremoved.2, Ne.symm uncleared.2⟩
  · rintro (rfl | ⟨⟨before, later, rfl, unadded, unremoved, uncleared⟩, noRemoval, noClearing⟩)
    · exact ⟨changes, [], rfl, by simp, by simp, by simp⟩
    · by_cases again : change = .add id
      · exact ⟨before ++ .add id :: later, [], by rw [again], by simp, by simp, by simp⟩
      · refine ⟨before, later ++ [change], by simp, ?_, ?_, ?_⟩
        · simp [unadded, Ne.symm again]
        · simp [unremoved, Ne.symm noRemoval]
        · simp [uncleared, Ne.symm noClearing]

/-- A set without members has no ids, whatever its room. -/
theorem contains_fresh (room? : Option Nat) (id : NodeId) : (fresh room?).contains id = false := by
  cases room? with
  | none => exact contains_empty id
  | some n => exact contains_withRoom n id

/-- The members are the ids that were kept, by induction from the last change backwards. -/
theorem contains_after (room? : Option Nat) (changes : List Change) (id : NodeId) :
    ((fresh room?).after changes).contains id = true ↔ Kept changes id := by
  induction changes using List.reverseRecOn with
  | nil =>
    have start : (fresh room?).after [] = fresh room? := rfl
    rw [start, contains_fresh]
    simp [Kept]
  | append_singleton changes change ih =>
    have next : (fresh room?).after (changes ++ [change]) =
        change.perform ((fresh room?).after changes) := List.foldl_concat ..
    rw [next, contains_perform, kept_concat, ih]

/-! ## Marks -/

/-- A set without members is clean. -/
theorem clean_fresh (room? : Option Nat) : (fresh room?).Clean := by
  cases room? with
  | none => exact clean_empty
  | some n =>
    intro i marked
    simp [fresh, withRoom, Array.getElem?_replicate] at marked

/-- Every change keeps a set clean. -/
theorem Clean.perform (clean : s.Clean) (change : Change) : (change.perform s).Clean := by
  cases change with
  | add id =>
    rw [Change.perform, add_eq]
    exact clean.insert id
  | remove id => exact clean.erase id
  | clear => exact clean_empty

/-- A set is clean after any changes. -/
theorem clean_after (room? : Option Nat) (changes : List Change) :
    ((fresh room?).after changes).Clean :=
  List.foldlRecOn changes _ (clean_fresh room?) fun _ clean change _ => clean.perform change

/-- The members are listed in increasing order. -/
theorem Clean.toList_sorted (clean : s.Clean) : s.toList.Pairwise (· < ·) := by
  unfold toList
  refine List.Pairwise.filterMap _ ?_ List.pairwise_lt_range
  intro i j below first listed second listed'
  obtain ⟨-, rfl⟩ := (clean.listed_iff i first).1 listed
  obtain ⟨-, rfl⟩ := (clean.listed_iff j second).1 listed'
  exact UInt32.lt_iff_toNat_lt.2 below

/-- As many ids are listed as marks are set. -/
theorem Clean.length_toList (clean : s.Clean) : s.toList.length = s.size := by
  have marks : s.marks.toList = (List.range s.marks.size).map fun i => s.marks[i]?.getD false := by
    apply List.ext_getElem
    · simp
    · intro i inside _
      rw [Array.length_toList] at inside
      simp [inside]
  unfold toList size
  rw [List.length_filterMap_eq_countP, marks, List.countP_map]
  refine List.countP_congr fun i _ => ?_
  rw [Option.isSome_iff_exists]
  simp only [clean.listed_iff]
  rw [Function.comp_apply, marked_iff]
  constructor
  · rintro ⟨id, marked, -⟩
    exact marked
  · intro marked
    obtain ⟨id, here⟩ := clean i marked
    exact ⟨id, marked, here⟩

/-- The size of a set is the number of its members. -/
theorem Clean.size_eq (clean : s.Clean) : s.size = {id | s.contains id = true}.ncard := by
  have listed : {id | s.contains id = true} = ↑s.toList.toFinset := by
    ext id
    rw [Set.mem_ofPred_eq, ← clean.mem_toList_iff, Finset.mem_coe, List.mem_toFinset]
  have distinct : s.toList.Nodup := by
    apply List.Pairwise.imp _ clean.toList_sorted
    intro first second below same
    exact UInt32.lt_irrefl first.raw (same ▸ below)
  rw [listed, Set.ncard_coe_finset, List.toFinset_card_of_nodup distinct, clean.length_toList]

/-! ## What was done to a set -/

/-- After any changes to a set that had no members, an id is a member exactly if the last time it was
added was neither followed by its removal nor by a clearing. Adding an id then answers whether it was
missing. The members are listed in increasing order, their number is the size, and the set is empty
exactly if there are none. -/
theorem members_after (room? : Option Nat) (changes : List Change) :
    let s := (fresh room?).after changes
    (∀ id, s.contains id = true ↔ Kept changes id) ∧
    (∀ id, (s.add id).1 = true ↔ s.contains id = false) ∧
    (∀ id, id ∈ s.toList ↔ s.contains id = true) ∧
    s.toList.Pairwise (· < ·) ∧
    s.size = {id | s.contains id = true}.ncard ∧
    (s.isEmpty = true ↔ ∀ id, s.contains id = false) := by
  intro s
  have clean : s.Clean := clean_after room? changes
  refine ⟨contains_after room? changes, fun id => ?_, clean.mem_toList_iff, clean.toList_sorted,
    clean.size_eq, contains_of_isEmpty, clean.isEmpty⟩
  rw [add_eq, Bool.not_eq_true']

end IdSet

end CodeGraph
