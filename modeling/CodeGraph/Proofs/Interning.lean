import CodeGraph.Proofs.Texts

/-!
# Keys of texts

A table that got all its texts by interning has every text under one key: the key of a text leads to
the text, and the text to its key. Texts that are interned later change neither. Main statements:
`TextTable.Interned.find?_eq_some_iff` and `TextTable.Interns.spec`.
-/

set_option autoImplicit false

namespace CodeGraph

open Relation

namespace TextTable

variable {t t' : TextTable}

/-- Every text has one key, and the table is what its entries make. -/
structure Interned (t : TextTable) : Prop where
  inverse : ∀ key s, t.texts.find? key = some s ↔ t.keys.find? s = some key
  /-- The empty text and its key are not stored. -/
  proper : ∀ key s, t.texts.find? key = some s → key.isEmpty = false ∧ s.isEmpty = false
  rebuilt : t.rebuilt = t

/-- In an empty table every text has one key. -/
theorem interned_empty : empty.Interned := by
  refine ⟨fun key s => ?_, fun key s found => ?_, rfl⟩
  · constructor <;> intro found <;> cases found
  · cases found

/-- A key leads to a text just if the text leads to the key. -/
theorem Interned.find?_eq_some_iff (interned : t.Interned) (key : TextKey) (s : String) :
    t.find? key = some s ↔ t.keyOf? s = some key := by
  have proper := interned.proper key s
  have inverse := interned.inverse key s
  have zero : key.isEmpty = true ↔ key = .empty := by
    obtain ⟨raw⟩ := key
    simp [TextKey.isEmpty, TextKey.empty]
  unfold find? keyOf?
  by_cases noKey : key.isEmpty = true <;> by_cases noText : s.isEmpty = true
  · have nothing : s = "" := String.isEmpty_iff.1 noText
    rw [if_pos noKey, if_pos noText]
    simp [nothing, zero.1 noKey]
  · have something : s ≠ "" := fun nothing => noText (String.isEmpty_iff.2 nothing)
    rw [if_pos noKey, if_neg noText, ← inverse]
    refine ⟨fun same => absurd (Option.some.inj same).symm something, fun found => ?_⟩
    rw [(proper found).1] at noKey
    cases noKey
  · have notZero : TextKey.empty ≠ key := fun same => noKey (zero.2 same.symm)
    rw [if_neg noKey, if_pos noText]
    refine ⟨fun found => ?_, fun same => absurd (Option.some.inj same) notZero⟩
    rw [(proper found).2] at noText
    cases noText
  · rw [if_neg noKey, if_neg noText, inverse]

/-- While the last key is unused, the next new key is unused too. -/
theorem Numbered.find?_nextKey (numbered : t.Numbered) (unused : t.texts.find? lastKey = none) :
    t.texts.find? ⟨t.nextKey⟩ = none := by
  by_contra used
  obtain ⟨s, found⟩ := Option.ne_none_iff_exists'.1 used
  have below := ((numbered.inRange unused).2 _ (SortedMap.mem_of_find? found)).2
  exact absurd below (UInt32.lt_irrefl _)

/-- A new text gets the next new key, and nothing else changes. -/
theorem intern_of_new (numbered : t.Numbered) (unused : t.texts.find? lastKey = none) {s : String}
    (new : t.keyOf? s = none) :
    t.intern s = (⟨t.nextKey⟩, ⟨t.texts.insert ⟨t.nextKey⟩ s, t.keys.insert s ⟨t.nextKey⟩,
      t.nextKey + 1⟩) := by
  unfold intern
  rw [new]
  unfold store
  simp only [numbered.find?_nextKey unused]
  split <;> rfl

/-- Interning a known text gives its key and changes nothing. -/
theorem intern_of_known {s : String} {key : TextKey} (known : t.keyOf? s = some key) :
    t.intern s = (key, t) := by
  unfold intern
  rw [known]

/-- A text without a key is not the empty one. -/
theorem isEmpty_of_new {s : String} (new : t.keyOf? s = none) : s.isEmpty = false := by
  unfold keyOf? at new
  split at new
  · cases new
  · next something => exact Bool.eq_false_iff.2 something

/-- An interned text has the key that was given. -/
theorem keyOf?_intern_self (t : TextTable) (s : String) :
    (t.intern s).2.keyOf? s = some (t.intern s).1 := by
  cases known : t.keyOf? s with
  | some key => rw [intern_of_known known, known]
  | none =>
    have something := isEmpty_of_new known
    unfold intern
    rw [known]
    simp [keyOf?, store, something]

/-- A text keeps its key when others are interned, while the last key is unused. -/
theorem keyOf?_intern (numbered : t.Numbered) (unused : t.texts.find? lastKey = none) {s : String}
    {key : TextKey} (known : t.keyOf? s = some key) (other : String) :
    (t.intern other).2.keyOf? s = some key := by
  cases new : t.keyOf? other with
  | some key' =>
    rw [intern_of_known new]
    exact known
  | none =>
    have different : s ≠ other := by
      rintro rfl
      rw [new] at known
      cases known
    rw [intern_of_new numbered unused new]
    unfold keyOf? at known ⊢
    split
    · next nothing =>
      rw [if_pos nothing] at known
      exact known
    · next something =>
      rw [if_neg something] at known
      rw [SortedMap.find?_insert_other _ different]
      exact known

/-- Interning keeps one key for every text, while the last key is unused. -/
theorem Interned.intern (interned : t.Interned) (numbered : t.Numbered)
    (unused : t.texts.find? lastKey = none) (s : String) : (t.intern s).2.Interned := by
  cases new : t.keyOf? s with
  | some key =>
    rw [intern_of_known new]
    exact interned
  | none =>
    have something := isEmpty_of_new new
    have noKey : t.keys.find? s = none := by
      unfold keyOf? at new
      rw [something] at new
      exact new
    have free := numbered.find?_nextKey unused
    obtain ⟨positive, below⟩ := numbered.inRange unused
    rw [intern_of_new numbered unused new]
    refine ⟨fun key x => ?_, fun key x found => ?_, ?_⟩
    · by_cases here : key = ⟨t.nextKey⟩ <;> by_cases same : x = s
      · simp [here, same]
      · -- no other text has the key
        have absent : t.keys.find? x ≠ some ⟨t.nextKey⟩ := by
          rw [Ne, ← interned.inverse, free]
          intro same
          cases same
        simp [here, same, Ne.symm same, absent]
      · have absent : t.texts.find? key ≠ some s := by
          rw [Ne, interned.inverse, noKey]
          intro same
          cases same
        simp [here, same, Ne.symm here, absent]
      · simp [here, same, interned.inverse]
    · by_cases here : key = ⟨t.nextKey⟩
      · simp only [here, SortedMap.find?_insert_same] at found
        cases found
        refine ⟨?_, something⟩
        rw [here, TextKey.isEmpty, beq_eq_false_iff_ne]
        exact UInt32.pos_iff_ne_zero.1 positive
      · simp only [SortedMap.find?_insert_other _ here] at found
        exact interned.proper key x found
    · -- the new entry comes last, so that it is also the last one that is stored again
      have last : t.texts.insert ⟨t.nextKey⟩ s = ⟨t.texts.entries ++ [(⟨t.nextKey⟩, s)]⟩ :=
        SortedMap.insert_of_forall_lt (fun entry mem => (below entry mem).2) s
      have again := interned.rebuilt
      unfold TextTable.rebuilt toList at again ⊢
      simp only [last, List.foldl_append, again, List.foldl_cons, List.foldl_nil]
      unfold TextTable.store
      simp only [free, last, UInt32.le_refl, if_true]

/-! ## Interning one text after another -/

/-- A table that comes from another one by interning texts. -/
def Interns : TextTable → TextTable → Prop :=
  ReflTransGen fun t t' => ∃ s, t' = (t.intern s).2

/-- Interning one text is interning texts. -/
theorem interns_intern (t : TextTable) (s : String) : t.Interns (t.intern s).2 :=
  ReflTransGen.single ⟨s, rfl⟩

/-- As long as the last key is unused in the end, all texts keep their keys. -/
theorem Interns.spec (interns : t.Interns t') (numbered : t.Numbered) :
    t'.Numbered ∧ (t'.texts.find? lastKey = none → t.texts.find? lastKey = none ∧
      (∀ s key, t.keyOf? s = some key → t'.keyOf? s = some key) ∧ (t.Interned → t'.Interned)) := by
  induction interns with
  | refl => exact ⟨numbered, fun unused => ⟨unused, fun _ _ known => known, id⟩⟩
  | tail _ last ih =>
    obtain ⟨s, rfl⟩ := last
    obtain ⟨middle, before⟩ := ih
    refine ⟨middle.intern s, fun unused => ?_⟩
    have unused' := (find?_intern middle unused).1
    obtain ⟨start, keys, interned⟩ := before unused'
    exact ⟨start, fun x key known => keyOf?_intern middle unused' (keys x key known) s,
      fun whole => (interned whole).intern middle unused' s⟩

end TextTable

end CodeGraph
