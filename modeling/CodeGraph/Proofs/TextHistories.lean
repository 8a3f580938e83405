import CodeGraph.Proofs.Interning
import Mathlib.Data.String.Basic

/-!
# Histories of a text table

Texts come into a table by interning and from stored tables, whose entries may replace texts, put one
text under several keys or the empty text under a key of its own, and may break off. Through all of
that the key of a text leads back to the text, though not every text that has a key is found by it,
and the next new key follows a key in use (`TextTable.regular_after`). A text that is new gets a key
above all others, and changes none of them. A table that was filled by interning alone has every text
under one key. Main statement: `TextTable.interning_after`.
-/

set_option autoImplicit false

namespace CodeGraph

namespace TextTable

variable {t : TextTable}

/-- A way in which texts come into a table. -/
inductive Change
  | intern (s : String)
  | load (input : Bytes)
deriving DecidableEq

namespace Change

/-- The table after a change. A stored table that cannot be read to its end leaves what was read. -/
def perform (t : TextTable) : Change → TextTable
  | .intern s => (t.intern s).2
  | .load input => (t.load input).1

def isLoad : Change → Bool
  | .intern _ => false
  | .load _ => true

end Change

/-- The table after several changes. -/
def after (t : TextTable) (changes : List Change) : TextTable :=
  changes.foldl Change.perform t

/-- Changes after others are changes in a row. -/
theorem after_append (t : TextTable) (first second : List Change) :
    t.after (first ++ second) = (t.after first).after second :=
  List.foldl_append

/-- The text that is found under a key is the one whose key it is. -/
def Consistent (t : TextTable) : Prop :=
  ∀ s key, t.keys.find? s = some key → t.texts.find? key = some s

/-- In an empty table no key leads to another text. -/
theorem consistent_empty : empty.Consistent := by
  intro s key known
  cases known

/-- Storing a text forgets the key of the text that it replaces, so that no key leads elsewhere. -/
theorem Consistent.store (consistent : t.Consistent) (key : TextKey) (s : String) :
    (t.store key s).Consistent := by
  intro x k known
  by_cases new : x = s
  · subst new
    have here : k = key := by
      unfold TextTable.store at known
      rw [SortedMap.find?_insert_same] at known
      exact (Option.some.inj known).symm
    rw [here]
    exact SortedMap.find?_insert_same _ _ _
  · unfold TextTable.store at known ⊢
    simp only [SortedMap.find?_insert_other _ new] at known ⊢
    -- the key of another text is not the one that was written
    have elsewhere : t.texts.find? k = some x ∧ k ≠ key := by
      cases previous : t.texts.find? key with
      | none =>
        rw [previous] at known
        have found := consistent x k known
        refine ⟨found, fun same => ?_⟩
        rw [same, previous] at found
        cases found
      | some replaced =>
        simp only [previous, SortedMap.find?_erase] at known
        split at known
        · cases known
        · next other =>
          have found := consistent x k known
          refine ⟨found, fun same => ?_⟩
          rw [same, previous] at found
          exact other (Option.some.inj found).symm
    rw [SortedMap.find?_insert_other _ elsewhere.2]
    exact elsewhere.1

/-- Interning keeps keys leading back to their texts. -/
theorem Consistent.intern (consistent : t.Consistent) (s : String) : (t.intern s).2.Consistent :=
  intern_preserves consistent (consistent.store _ s)

/-- Reading a table keeps keys leading back to their texts, however far it gets. -/
theorem Consistent.load (consistent : t.Consistent) (input : Bytes) :
    (t.load input).1.Consistent :=
  load_preserves (fun _ before => before.store _) consistent input

/-- What all changes keep of a table: besides that the keys stand in order and lead back to their texts,
the texts stand in order too, and the next new key is the first of all or follows a key in use. -/
structure Regular (t : TextTable) : Prop where
  numbered : t.Numbered
  consistent : t.Consistent
  ordered : t.keys.Sorted
  follows : t.texts = .empty ∧ t.nextKey = 1 ∨
    ∃ key s, t.texts.find? key = some s ∧ t.nextKey = key.raw + 1

/-- An empty table is regular. -/
theorem regular_empty : empty.Regular :=
  ⟨numbered_empty, consistent_empty, SortedMap.sorted_empty, Or.inl ⟨rfl, rfl⟩⟩

/-- Storing a text keeps a table regular, unless it is stored under the key zero while the last key
is unused. -/
theorem Regular.store (regular : t.Regular) {key : TextKey}
    (positive : t.texts.find? lastKey = none → 0 < key.raw) (s : String) :
    (t.store key s).Regular where
  numbered := regular.numbered.store positive s
  consistent := regular.consistent.store key s
  ordered := by
    unfold TextTable.store
    refine SortedMap.Sorted.insert ?_ s key
    split
    · exact regular.ordered.erase _
    · exact regular.ordered
  follows := by
    have next : (t.store key s).nextKey = if t.nextKey ≤ key.raw then key.raw + 1 else t.nextKey := rfl
    have texts : (t.store key s).texts = t.texts.insert key s := rfl
    right
    rw [next, texts]
    split
    · exact ⟨key, s, SortedMap.find?_insert_same _ _ _, rfl⟩
    · next below =>
      rcases regular.follows with ⟨nothing, first⟩ | ⟨k, x, found, last⟩
      · -- the first text of all has a positive key
        have unused : t.texts.find? lastKey = none := by
          rw [nothing]
          rfl
        have key_pos := positive unused
        rw [first, UInt32.le_iff_toNat_le] at below
        rw [UInt32.lt_iff_toNat_lt] at key_pos
        exact absurd key_pos below
      · by_cases here : k = key
        · exact ⟨key, s, SortedMap.find?_insert_same _ _ _, here ▸ last⟩
        · exact ⟨k, x, (SortedMap.find?_insert_other _ here s).trans found, last⟩

/-- Interning keeps a table regular. -/
theorem Regular.intern (regular : t.Regular) (s : String) : (t.intern s).2.Regular :=
  intern_preserves regular (regular.store (fun unused => (regular.numbered.inRange unused).1) s)

/-- Reading a table keeps one regular, however far it gets. -/
theorem Regular.load (regular : t.Regular) (input : Bytes) : (t.load input).1.Regular :=
  load_preserves (fun positive before => before.store fun _ => positive) regular input

/-- A table is regular after any changes. -/
theorem regular_after (changes : List Change) : (empty.after changes).Regular := by
  refine List.foldlRecOn (motive := Regular) changes _ regular_empty fun t regular change _ => ?_
  cases change with
  | intern s => exact regular.intern s
  | load input => exact regular.load input

/-- Whatever has come into a table, its keys stand in order and lead back to their texts. -/
theorem consistent_after (changes : List Change) :
    (empty.after changes).Numbered ∧ (empty.after changes).Consistent :=
  ⟨(regular_after changes).numbered, (regular_after changes).consistent⟩

/-! ## What a table answers -/

/-- A text is given for a key just if it is found under it. -/
theorem get_eq_ok_iff {key : TextKey} {s : String} : t.get key = .ok s ↔ t.find? key = some s := by
  unfold get
  cases t.find? key <;> simp

section Keys

variable (numbered : t.Numbered) (unused : t.texts.find? lastKey = none)
include numbered unused

/-- A key that is stored is not that of the empty text. -/
theorem isEmpty_of_find? {key : TextKey} {s : String} (found : t.texts.find? key = some s) :
    key.isEmpty = false := by
  have positive := ((numbered.inRange unused).2 _ (SortedMap.mem_of_find? found)).1
  rw [TextKey.isEmpty, beq_eq_false_iff_ne]
  exact UInt32.pos_iff_ne_zero.1 positive

/-- The key of a text gives the text. -/
theorem Consistent.get_of_keyOf? (consistent : t.Consistent) {s : String} {key : TextKey}
    (known : t.keyOf? s = some key) : t.get key = .ok s := by
  rw [get_eq_ok_iff]
  unfold keyOf? at known
  split at known
  · next nothing =>
    cases known
    exact congrArg some (String.isEmpty_iff.1 nothing).symm
  · have found := consistent s key known
    unfold find?
    rw [isEmpty_of_find? numbered unused found]
    exact found

/-- The key that interning gives leads to the text. -/
theorem get_intern (consistent : t.Consistent) (s : String) :
    (t.intern s).2.get (t.intern s).1 = .ok s := by
  cases known : t.keyOf? s with
  | some key =>
    rw [intern_of_known known]
    exact consistent.get_of_keyOf? numbered unused known
  | none =>
    have positive := (numbered.inRange unused).1
    have nonzero : (TextKey.mk t.nextKey).isEmpty = false := by
      rw [TextKey.isEmpty, beq_eq_false_iff_ne]
      exact UInt32.pos_iff_ne_zero.1 positive
    rw [intern_of_new numbered unused known, get_eq_ok_iff]
    unfold find?
    rw [nonzero]
    exact SortedMap.find?_insert_same _ _ _

/-- A new text gets a key above all that are in use, that of the empty text included. -/
theorem lt_intern {s : String} (new : t.keyOf? s = none) {key : TextKey} {text : String}
    (found : t.find? key = some text) : key < (t.intern s).1 := by
  obtain ⟨positive, below⟩ := numbered.inRange unused
  rw [intern_of_new numbered unused new]
  unfold find? at found
  split at found
  · next zero =>
    have same : key = .empty := by
      obtain ⟨raw⟩ := key
      simpa [TextKey.isEmpty, TextKey.empty] using zero
    rw [same]
    exact positive
  · exact (below _ (SortedMap.mem_of_find? found)).2

end Keys

/-- Interning a text again gives the same key and changes nothing. -/
theorem intern_intern (t : TextTable) (s : String) : (t.intern s).2.intern s = t.intern s :=
  intern_of_known (keyOf?_intern_self t s)

/-! ## Tables filled by interning alone -/

/-- Changes that read no tables intern texts. -/
theorem interns_after {changes : List Change} (noLoad : ∀ change ∈ changes, change.isLoad = false)
    (t : TextTable) : t.Interns (t.after changes) := by
  refine List.foldlRecOn (motive := t.Interns) changes _ .refl fun u interns change mem => ?_
  cases change with
  | intern s => exact interns.tail ⟨s, rfl⟩
  | load input => cases noLoad _ mem

/-- A text that was interned has a key for good. -/
theorem exists_keyOf?_after {changes : List Change}
    (noLoad : ∀ change ∈ changes, change.isLoad = false)
    (unused : (empty.after changes).texts.find? lastKey = none) {s : String}
    (interned : .intern s ∈ changes) : ∃ key, (empty.after changes).keyOf? s = some key := by
  obtain ⟨before, rest, rfl⟩ := List.append_of_mem interned
  have later : ∀ change ∈ rest, change.isLoad = false := fun change mem =>
    noLoad change (List.mem_append_right before (List.mem_cons_of_mem _ mem))
  rw [after_append] at unused ⊢
  let t := (empty.after before).intern s
  have numbered : t.2.Numbered := (consistent_after before).1.intern s
  obtain ⟨-, keeps⟩ := (interns_after later t.2).spec numbered
  exact ⟨t.1, (keeps unused).2.1 s t.1 (keyOf?_intern_self _ s)⟩

/-- Whatever has been interned in a table and read into it, and as long as no text has the last key:
the key of a text leads to the text; an interned text is found under the key that interning gives,
interning it again changes nothing, all other keys keep their texts, and the key of a new text lies
above them. If all texts were interned, each has a key that no other text has, and every key is that
of its text. -/
theorem interning_after (changes : List Change) (spares : (empty.after changes).SparesLastKey) :
    let t := empty.after changes
    (∀ s key, t.keyOf? s = some key → t.get key = .ok s) ∧
    (∀ s, (t.intern s).2.get (t.intern s).1 = .ok s ∧ (t.intern s).2.intern s = t.intern s ∧
      (∀ key text, t.get key = .ok text → (t.intern s).2.get key = .ok text) ∧
      (t.keyOf? s = none → ∀ key text, t.get key = .ok text → key < (t.intern s).1)) ∧
    ((∀ change ∈ changes, change.isLoad = false) →
      (∀ s, .intern s ∈ changes → ∃ key, t.keyOf? s = some key ∧
        ∀ other, t.keyOf? other = some key → other = s) ∧
      ∀ key text, t.get key = .ok text → t.keyOf? text = some key) := by
  intro t
  have unused : t.texts.find? lastKey = none := spares.unused
  obtain ⟨numbered, consistent⟩ : t.Numbered ∧ t.Consistent := consistent_after changes
  have leads : ∀ s key, t.keyOf? s = some key → t.get key = .ok s :=
    fun s key known => consistent.get_of_keyOf? numbered unused known
  refine ⟨leads, fun s => ⟨get_intern numbered unused consistent s, intern_intern t s, ?_, ?_⟩, ?_⟩
  · intro key text found
    rw [get_eq_ok_iff] at found ⊢
    exact find?_intern_of_unused numbered unused s found
  · intro new key text found
    exact lt_intern numbered unused new (get_eq_ok_iff.1 found)
  · intro noLoad
    refine ⟨fun s interned => ?_, fun key text found => ?_⟩
    · obtain ⟨key, known⟩ := exists_keyOf?_after noLoad unused interned
      refine ⟨key, known, fun other same => ?_⟩
      exact Except.ok.inj ((leads other key same).symm.trans (leads s key known))
    · have whole : t.Interned :=
        (((interns_after noLoad empty).spec numbered_empty).2 unused).2.2 interned_empty
      exact (whole.find?_eq_some_iff key text).1 (get_eq_ok_iff.1 found)

/-- Changes that intern two texts, read a table that puts the second one under the key of the first and
under a third key, has the empty text, and breaks off, and then intern another text. -/
def overwritingChanges : List Change :=
  [.intern "a", .intern "b",
    .load (magic ++ [(⟨1⟩, "b"), (⟨7⟩, ""), (⟨9⟩, "b")].flatMap entryBytes), .intern "c"]

/-- The text that was replaced is new again and gets a key above that of the empty text; two texts
that were only interned have keys of their own. -/
theorem interning_after_overwriting :
    let t := empty.after overwritingChanges
    let u := empty.after [.intern "a", .intern "", .intern "b", .intern "a"]
    (t.SparesLastKey ∧ t.keyOf? "b" = some ⟨9⟩ ∧ t.get ⟨9⟩ = .ok "b") ∧
      (t.keyOf? "a" = none ∧ t.get ⟨7⟩ = .ok "" ∧ ⟨7⟩ < (t.intern "a").1 ∧
        (t.intern "a").2.get ⟨7⟩ = .ok "" ∧ (t.intern "a").2.get (t.intern "a").1 = .ok "a") ∧
      u.SparesLastKey ∧ u.get ⟨2⟩ = .ok "b" ∧ u.keyOf? "b" = some ⟨2⟩ := by
  intro t u
  have facts : t.SparesLastKey ∧ t.keyOf? "b" = some ⟨9⟩ ∧ t.keyOf? "a" = none ∧
      t.get ⟨7⟩ = .ok "" ∧ u.SparesLastKey ∧ u.get ⟨2⟩ = .ok "b" := by decide +kernel
  obtain ⟨spares, second, first, nothing, spares', other⟩ := facts
  obtain ⟨leads, interns, -⟩ := interning_after overwritingChanges spares
  obtain ⟨found, -, keeps, above⟩ := interns "a"
  obtain ⟨-, -, alone⟩ := interning_after _ spares'
  exact ⟨⟨spares, second, leads "b" ⟨9⟩ second⟩,
    ⟨first, nothing, above first ⟨7⟩ "" nothing, keeps ⟨7⟩ "" nothing, found⟩,
    spares', other, (alone (by decide)).2 ⟨2⟩ "b" other⟩

end TextTable

end CodeGraph
