import CodeGraph.Proofs.Loading
import Mathlib.Data.List.Sort

/-!
# Texts

The entries of a text table stand in increasing order of their keys. As long as the last key of all
has not been given away, every key is positive and lies below the next new one, so that new texts
get new keys. Main statements: `numbered_after`, this holds after every history;
`TextTable.load_save`, the bytes of a table restore its entries; and `find?_intern`, new texts leave
the old ones where they are.
-/

set_option autoImplicit false

namespace CodeGraph

namespace SortedMap

/-- What is found is an entry. -/
theorem mem_of_find? {κ α : Type} [DecidableEq κ] {m : SortedMap κ α} {key : κ} {value : α}
    (found : m.find? key = some value) : (key, value) ∈ m.entries := by
  obtain ⟨entries⟩ := m
  unfold find? at found
  simp only at found ⊢
  induction entries with
  | nil => cases found
  | cons entry rest ih =>
    unfold lookup at found
    split at found
    · next here =>
      cases found
      exact here ▸ List.mem_cons_self
    · exact List.mem_cons_of_mem _ (ih found)

/-- A key is looked up behind entries with other keys. -/
theorem find?_append {κ α : Type} [DecidableEq κ] {before : List (κ × α)} {key : κ}
    (others : ∀ entry ∈ before, entry.1 ≠ key) (after : List (κ × α)) :
    (⟨before ++ after⟩ : SortedMap κ α).find? key = (⟨after⟩ : SortedMap κ α).find? key := by
  unfold find?
  induction before with
  | nil => rfl
  | cons first rest ih =>
    obtain ⟨different, others⟩ := List.forall_mem_cons.1 others
    rw [List.cons_append, lookup, if_neg different]
    exact ih others

variable {κ α : Type} [LT κ]

/-- The entries stand in increasing order of their keys. -/
def Sorted (m : SortedMap κ α) : Prop :=
  m.entries.Pairwise fun a b => a.1 < b.1

/-- An empty map is in order. -/
theorem sorted_empty : (empty : SortedMap κ α).Sorted :=
  List.Pairwise.nil

/-- Erasing an entry keeps a map in order. -/
theorem Sorted.erase [DecidableEq κ] {m : SortedMap κ α} (sorted : m.Sorted) (key : κ) :
    (m.erase key).Sorted :=
  sorted.filter _

variable [DecidableEq κ] [DecidableLT κ]

/-- After an insertion every entry is the new one or an old one. -/
theorem mem_insert {m : SortedMap κ α} {key : κ} {value : α} {entry : κ × α}
    (mem : entry ∈ (m.insert key value).entries) : entry = (key, value) ∨ entry ∈ m.entries := by
  obtain ⟨entries⟩ := m
  unfold insert at mem
  simp only at mem ⊢
  induction entries with
  | nil => exact Or.inl (List.mem_singleton.1 mem)
  | cons first rest ih =>
    unfold insertEntry at mem
    split at mem
    · exact List.mem_cons.1 mem
    · split at mem
      · rcases List.mem_cons.1 mem with new | old
        · exact Or.inl new
        · exact Or.inr (List.mem_cons_of_mem _ old)
      · rcases List.mem_cons.1 mem with same | later
        · exact Or.inr (same ▸ List.mem_cons_self)
        · exact (ih later).imp_right (List.mem_cons_of_mem _)

section Order

variable [IsStrictTotalOrder κ (· < ·)]

omit [DecidableLT κ] in
/-- Every entry of a sorted map is found. -/
theorem Sorted.find?_of_mem {m : SortedMap κ α} (sorted : m.Sorted) {entry : κ × α}
    (mem : entry ∈ m.entries) : m.find? entry.1 = some entry.2 := by
  obtain ⟨entries⟩ := m
  obtain ⟨before, after, rfl⟩ := List.append_of_mem mem
  have others : ∀ other ∈ before, other.1 ≠ entry.1 := fun other earlier =>
    ne_of_irrefl ((List.pairwise_append.1 sorted).2.2 other earlier entry List.mem_cons_self)
  rw [find?_append others]
  simp [find?, lookup]

omit [DecidableLT κ] in
/-- Sorted maps that give the same answers have the same entries. -/
theorem Sorted.ext {m m' : SortedMap κ α} (sorted : m.Sorted) (sorted' : m'.Sorted)
    (same : ∀ key, m.find? key = m'.find? key) : m = m' := by
  have irrefl : Std.Irrefl fun a b : κ × α => a.1 < b.1 := ⟨fun a => irrefl a.1⟩
  have antisymm : Std.Antisymm fun a b : κ × α => a.1 < b.1 :=
    ⟨fun _ _ below above => absurd above (asymm below)⟩
  have entries : m.entries = m'.entries := by
    refine List.Pairwise.eq_of_mem_iff sorted sorted' fun entry => ⟨fun mem => ?_, fun mem => ?_⟩
    · exact mem_of_find? ((same entry.1).symm.trans (sorted.find?_of_mem mem))
    · exact mem_of_find? ((same entry.1).trans (sorted'.find?_of_mem mem))
  cases m
  cases m'
  cases entries
  rfl

/-- An insertion keeps a map in order. -/
theorem Sorted.insert {m : SortedMap κ α} (sorted : m.Sorted) (key : κ) (value : α) :
    (m.insert key value).Sorted := by
  obtain ⟨entries⟩ := m
  unfold Sorted at sorted ⊢
  induction entries with
  | nil => exact List.pairwise_singleton _ _
  | cons first rest ih =>
    obtain ⟨below, others⟩ := List.pairwise_cons.1 sorted
    unfold SortedMap.insert insertEntry
    split
    · next before =>
      refine List.pairwise_cons.2 ⟨fun entry mem => ?_, sorted⟩
      rcases List.mem_cons.1 mem with rfl | later
      · exact before
      · exact IsTrans.trans _ _ _ before (below entry later)
    · next notBefore =>
      split
      · next same =>
        exact List.pairwise_cons.2 ⟨fun entry mem => same ▸ below entry mem, others⟩
      · next different =>
        have after : first.1 < key :=
          ((trichotomous_of (· < ·) first.1 key).resolve_right fun h =>
            h.elim different notBefore)
        refine List.pairwise_cons.2 ⟨fun entry mem => ?_, ih others⟩
        rcases mem_insert (m := ⟨rest⟩) mem with rfl | old
        · exact after
        · exact below entry old

/-- An entry goes behind those with smaller keys. -/
theorem insert_append {before : List (κ × α)} {key : κ}
    (above : ∀ entry ∈ before, entry.1 < key) (after : List (κ × α)) (value : α) :
    (⟨before ++ after⟩ : SortedMap κ α).insert key value = ⟨before ++ insertEntry key value after⟩ := by
  unfold insert
  congr 1
  induction before with
  | nil => rfl
  | cons first rest ih =>
    obtain ⟨here, others⟩ := List.forall_mem_cons.1 above
    have notBefore : ¬ key < first.1 := asymm here
    have different : first.1 ≠ key := ne_of_irrefl here
    rw [List.cons_append, List.cons_append, insertEntry, if_neg notBefore, if_neg different, ih others]

/-- An entry with a key above all others comes last. -/
theorem insert_of_forall_lt {entries : List (κ × α)} {key : κ}
    (above : ∀ entry ∈ entries, entry.1 < key) (value : α) :
    (⟨entries⟩ : SortedMap κ α).insert key value = ⟨entries ++ [(key, value)]⟩ := by
  have last := insert_append above [] value
  rwa [List.append_nil] at last

/-- Inserting the entries of a sorted map in order makes that map. -/
theorem Sorted.foldl_insert {m : SortedMap κ α} (sorted : m.Sorted) :
    m.entries.foldl (fun made entry => made.insert entry.1 entry.2) empty = m := by
  -- the entries that are there already stand before all that are still to come
  have rebuilt : ∀ (later made : List (κ × α)),
      ((made ++ later).Pairwise fun a b => a.1 < b.1) →
      later.foldl (fun made entry => made.insert entry.1 entry.2) ⟨made⟩ =
        (⟨made ++ later⟩ : SortedMap κ α) := by
    intro later
    induction later with
    | nil =>
      intro made _
      rw [List.append_nil]
      rfl
    | cons entry later ih =>
      intro made sorted
      have above : ∀ other ∈ made, other.1 < entry.1 := fun other mem =>
        (List.pairwise_append.1 sorted).2.2 other mem entry List.mem_cons_self
      rw [List.foldl_cons, insert_of_forall_lt above]
      have regrouped : made ++ entry :: later = made ++ [entry] ++ later := by simp
      rw [regrouped] at sorted ⊢
      exact ih (made ++ [entry]) sorted
  exact rebuilt m.entries [] sorted

end Order

end SortedMap

instance : IsStrictTotalOrder TextKey (· < ·) where
  trichotomous a b notBelow notAbove := by
    obtain ⟨a⟩ := a
    obtain ⟨b⟩ := b
    have below : ¬ a < b := notBelow
    have above : ¬ b < a := notAbove
    rw [UInt32.lt_iff_toNat_lt] at below above
    have same : a.toNat = b.toNat := by omega
    rw [UInt32.toNat_inj.1 same]
  irrefl a := UInt32.lt_irrefl a.raw
  trans a b c := fun (first : a.raw < b.raw) (second : b.raw < c.raw) =>
    UInt32.lt_trans first second

namespace TextTable

/-- The last key of all. No key comes after it. -/
def lastKey : TextKey :=
  ⟨0xFFFFFFFF⟩

/-- The keys stand in order, and while the last one is unused all of them lie between zero and the
next new one. -/
structure Numbered (t : TextTable) : Prop where
  sorted : t.texts.Sorted
  inRange : t.texts.find? lastKey = none →
    0 < t.nextKey ∧ ∀ entry ∈ t.toList, 0 < entry.1.raw ∧ entry.1.raw < t.nextKey

/-- No text has the last key. -/
def SparesLastKey (t : TextTable) : Prop :=
  ∀ entry ∈ t.toList, entry.1 < lastKey

instance (t : TextTable) : Decidable t.SparesLastKey :=
  inferInstanceAs (Decidable (∀ entry ∈ t.toList, entry.1 < lastKey))

/-- If no text has the last key, nothing is found under it. -/
theorem SparesLastKey.unused {t : TextTable} (spares : t.SparesLastKey) :
    t.texts.find? lastKey = none := by
  by_contra used
  obtain ⟨s, found⟩ := Option.ne_none_iff_exists'.1 used
  have below : lastKey < lastKey := spares _ (SortedMap.mem_of_find? found)
  exact absurd below (by decide)

/-- The keys of an empty table are in order. -/
theorem numbered_empty : empty.Numbered :=
  ⟨SortedMap.sorted_empty, fun _ => ⟨by decide, fun _ absent => absurd absent List.not_mem_nil⟩⟩

/-- If the last key is unused after a text was stored, it was unused before and is not the key of
that text. -/
theorem unused_of_store {t : TextTable} {key : TextKey} {s : String}
    (unused : (t.store key s).texts.find? lastKey = none) :
    t.texts.find? lastKey = none ∧ key ≠ lastKey := by
  change (t.texts.insert key s).find? lastKey = none at unused
  by_cases last : lastKey = key
  · rw [last, SortedMap.find?_insert_same] at unused
    cases unused
  · rw [SortedMap.find?_insert_other _ last] at unused
    exact ⟨unused, Ne.symm last⟩

/-- Storing a text keeps the keys in order, unless it is stored under the key zero while the last
key is unused. -/
theorem Numbered.store {t : TextTable} (numbered : t.Numbered) {key : TextKey}
    (positive : t.texts.find? lastKey = none → 0 < key.raw) (s : String) :
    (t.store key s).Numbered := by
  refine ⟨numbered.sorted.insert key s, fun unused => ?_⟩
  obtain ⟨unused, notLast⟩ := unused_of_store unused
  obtain ⟨next, entries⟩ := numbered.inRange unused
  have key_pos := positive unused
  -- only after the last key would the next one start over at zero
  have next' : (t.store key s).nextKey = if t.nextKey ≤ key.raw then key.raw + 1 else t.nextKey := rfl
  have succ : key.raw < key.raw + 1 := by
    have differs : key.raw.toNat ≠ 4294967295 := fun same =>
      notLast (congrArg TextKey.mk (UInt32.toNat_inj.1 same))
    have small := key.raw.toNat_lt
    rw [UInt32.lt_iff_toNat_lt, UInt32.toNat_add]
    change _ < (_ + 1) % _
    omega
  have reached : t.nextKey ≤ (t.store key s).nextKey ∧ key.raw < (t.store key s).nextKey := by
    rw [next']
    split
    · next above => exact ⟨UInt32.le_of_lt (UInt32.lt_of_le_of_lt above succ), succ⟩
    · next below => exact ⟨UInt32.le_refl _, UInt32.not_le.1 below⟩
  refine ⟨UInt32.lt_of_lt_of_le next reached.1, fun entry mem => ?_⟩
  rcases SortedMap.mem_insert mem with rfl | old
  · exact ⟨key_pos, reached.2⟩
  · obtain ⟨pos, below⟩ := entries entry old
    exact ⟨pos, UInt32.lt_of_lt_of_le below reached.1⟩

/-- A text that is new is stored under the next new key. -/
theorem intern_eq (t : TextTable) (s : String) :
    (t.intern s).2 = t ∨ (t.intern s).2 = t.store ⟨t.nextKey⟩ s := by
  unfold intern
  split
  · exact Or.inl rfl
  · right
    unfold store
    simp only [UInt32.le_refl, if_true, ite_self]

/-- What storing a text under the next new key keeps, interning keeps. -/
theorem intern_preserves {P : TextTable → Prop} {t : TextTable} {s : String} (before : P t)
    (store : P (t.store ⟨t.nextKey⟩ s)) : P (t.intern s).2 := by
  rcases t.intern_eq s with same | stored
  · rw [same]
    exact before
  · rw [stored]
    exact store

/-- If the last key is unused after a text was interned, it was unused before. -/
theorem unused_of_intern {t : TextTable} {s : String}
    (unused : (t.intern s).2.texts.find? lastKey = none) : t.texts.find? lastKey = none := by
  rcases t.intern_eq s with same | stored
  · exact same ▸ unused
  · rw [stored] at unused
    exact (unused_of_store unused).1

/-- Interning keeps the keys in order. -/
theorem Numbered.intern {t : TextTable} (numbered : t.Numbered) (s : String) :
    (t.intern s).2.Numbered :=
  intern_preserves numbered (numbered.store (fun unused => (numbered.inRange unused).1) s)

/-- A new text leaves the old ones where they are, if the last key was unused before. -/
theorem find?_intern_of_unused {t : TextTable} (numbered : t.Numbered)
    (unused : t.texts.find? lastKey = none) (s : String) {key : TextKey} {text : String}
    (found : t.find? key = some text) : (t.intern s).2.find? key = some text := by
  rcases t.intern_eq s with same | stored
  · rw [same]
    exact found
  · rw [stored]
    unfold find? at found ⊢
    split
    · next zero =>
      rw [if_pos zero] at found
      exact found
    · next nonzero =>
      rw [if_neg nonzero] at found
      have below := ((numbered.inRange unused).2 _ (SortedMap.mem_of_find? found)).2
      have different : key ≠ ⟨t.nextKey⟩ := fun same => UInt32.ne_of_lt below (congrArg TextKey.raw same)
      exact (SortedMap.find?_insert_other _ different s).trans found

/-- New texts leave the old ones where they are, while the last key is unused. -/
theorem find?_intern {t : TextTable} (numbered : t.Numbered) {s : String}
    (unused : (t.intern s).2.texts.find? lastKey = none) :
    t.texts.find? lastKey = none ∧
      ∀ key text, t.find? key = some text → (t.intern s).2.find? key = some text := by
  have before := unused_of_intern unused
  exact ⟨before, fun _ _ => find?_intern_of_unused numbered before s⟩

/-- All keys lie below a number, and the next new one does not lie above it. -/
structure KeysBelow (n : Nat) (t : TextTable) : Prop where
  next : t.nextKey.toNat ≤ n
  entries : ∀ entry ∈ t.toList, entry.1.raw.toNat < n

/-- Keys below a number are below every larger one. -/
theorem KeysBelow.mono {t : TextTable} {m n : Nat} (below : t.KeysBelow m) (le : m ≤ n) :
    t.KeysBelow n :=
  ⟨Nat.le_trans below.next le, fun entry mem => Nat.lt_of_lt_of_le (below.entries entry mem) le⟩

/-- Storing a text under a key below a number keeps all keys below it. -/
theorem KeysBelow.store {t : TextTable} {n : Nat} (below : t.KeysBelow n) {key : TextKey}
    (inside : key.raw.toNat < n) (small : n < UInt32.size) (s : String) :
    (t.store key s).KeysBelow n := by
  refine ⟨?_, fun entry mem => ?_⟩
  · have next' : (t.store key s).nextKey = if t.nextKey ≤ key.raw then key.raw + 1 else t.nextKey :=
      rfl
    rw [next']
    split
    · rw [UInt32.toNat_add]
      change (_ + 1) % UInt32.size ≤ n
      rw [Nat.mod_eq_of_lt (Nat.lt_of_le_of_lt inside small)]
      exact inside
    · exact below.next
  · rcases SortedMap.mem_insert mem with rfl | old
    · exact inside
    · exact below.entries entry old

/-- A new text takes at most one more key. -/
theorem KeysBelow.intern {t : TextTable} {n : Nat} (below : t.KeysBelow n)
    (small : n + 1 < UInt32.size) (s : String) : (t.intern s).2.KeysBelow (n + 1) := by
  have more : t.KeysBelow (n + 1) := below.mono (Nat.le_succ n)
  exact intern_preserves more (more.store (Nat.lt_succ_of_le below.next) small s)

/-- If all keys lie below a number of four bytes, no text has the last key. -/
theorem KeysBelow.sparesLastKey {t : TextTable} {n : Nat} (below : t.KeysBelow n)
    (small : n < UInt32.size) : t.SparesLastKey := by
  intro entry mem
  have inside := below.entries entry mem
  change entry.1.raw < 0xFFFFFFFF
  rw [UInt32.lt_iff_toNat_lt]
  change _ < 4294967295
  unfold UInt32.size at small
  omega

/-! ## What the bytes of a table restore -/

/-- An entry that is read does not have the key zero. -/
theorem nonzero_of_readEntry {input rest : Bytes} {entry : TextKey × String}
    (taken : readEntry input = .ok (some entry, rest)) : 0 < entry.1.raw := by
  unfold readEntry at taken
  rw [Reader.bind_apply] at taken
  split at taken
  · next key left keyRead =>
    split at taken
    · cases taken
    · next nonzero =>
      simp only [Reader.bind_apply] at taken
      split at taken
      · split at taken
        · cases taken
          have differs : key.raw ≠ 0 := fun zero => nonzero (by rw [TextKey.isEmpty, zero]; rfl)
          exact UInt32.pos_iff_ne_zero.2 differs
        · cases taken
      · cases taken
  · cases taken

/-- What storing a text under a positive key keeps, loading keeps. -/
theorem load_preserves {P : TextTable → Prop}
    (store : ∀ {t : TextTable} {key}, 0 < key.raw → P t → ∀ s, P (t.store key s)) {t : TextTable}
    (before : P t) (input : Bytes) : P (t.load input).1 := by
  unfold TextTable.load
  split
  · exact before
  · split
    · refine InPlace.loadRounds_preserves (P := P) ?_ _ before _
      intro entry table input rest taken holds
      exact store (nonzero_of_readEntry taken) holds entry.2
    · exact before

/-- Reading a table keeps the keys in order, however far it gets. -/
theorem Numbered.load {t : TextTable} (numbered : t.Numbered) (input : Bytes) :
    (t.load input).1.Numbered :=
  load_preserves (fun positive before => before.store fun _ => positive) numbered input

/-- If the last key is unused after a table was read, it was unused before. -/
theorem unused_of_load {t : TextTable} {input : Bytes}
    (unused : (t.load input).1.texts.find? lastKey = none) : t.texts.find? lastKey = none := by
  contrapose! unused
  refine load_preserves (P := fun t => t.texts.find? lastKey ≠ none) ?_ unused input
  exact fun _ used s free => used (unused_of_store free).1

/-- The bytes of an entry restore it. -/
theorem readEntry_entryBytes {entry : TextKey × String} (positive : 0 < entry.1.raw)
    (short : (Utf8.encode entry.2).length < 2 ^ 32) (rest : Bytes) :
    readEntry (entryBytes entry ++ rest) = .ok (some entry, rest) := by
  have nonzero : entry.1.isEmpty = false := by
    rw [TextKey.isEmpty, beq_eq_false_iff_ne]
    exact UInt32.pos_iff_ne_zero.1 positive
  have length : (Utf8.encode entry.2).length % wordRange 4 = (Utf8.encode entry.2).length :=
    Nat.mod_eq_of_lt short
  unfold readEntry entryBytes
  rw [Reader.bind_apply, List.append_assoc, List.append_assoc, Codec.lawful_textKey]
  simp only [nonzero, Bool.false_eq_true, if_false, Reader.bind_apply, Reader.word_wordBytes, length]
  simp [Reader.text]

/-- The key zero ends the entries. -/
theorem readEntry_end (rest : Bytes) : readEntry (wordBytes 4 0 ++ rest) = .ok (none, rest) := by
  have zero : Codec.textKey.decode (wordBytes 4 0 ++ rest) = .ok (.empty, rest) :=
    Codec.lawful_textKey .empty rest
  unfold readEntry
  rw [Reader.bind_apply, zero]
  rfl

/-- Storing entries one by one inserts them one by one. -/
theorem texts_foldl_store (entries : List (TextKey × String)) (t : TextTable) :
    (entries.foldl (fun table entry => table.store entry.1 entry.2) t).texts =
      entries.foldl (fun made entry => made.insert entry.1 entry.2) t.texts := by
  induction entries generalizing t with
  | nil => rfl
  | cons entry entries ih => exact ih (t.store entry.1 entry.2)

/-- The table that is built from the entries of a table, one after another. -/
def rebuilt (t : TextTable) : TextTable :=
  t.toList.foldl (fun table entry => table.store entry.1 entry.2) empty

/-- The table that the entries of a table make has the same texts. -/
theorem texts_rebuilt {t : TextTable} (sorted : t.texts.Sorted) : t.rebuilt.texts = t.texts := by
  unfold rebuilt
  rw [texts_foldl_store]
  exact sorted.foldl_insert

/-- The table that entries make has all keys below a number if the entries do. -/
theorem keysBelow_rebuilt {t : TextTable} {n : Nat} (positive : 0 < n) (small : n < UInt32.size)
    (inside : ∀ entry ∈ t.toList, entry.1.raw.toNat < n) : t.rebuilt.KeysBelow n := by
  have start : empty.KeysBelow n := ⟨positive, fun _ absent => absurd absent List.not_mem_nil⟩
  exact List.foldlRecOn t.toList _ start fun table below entry mem =>
    below.store (inside entry mem) small entry.2

/-- The bytes of entries are read up to the key zero, if none of them has that key and each text is
short enough for its length to be written. -/
theorem load_entries {entries : List (TextKey × String)}
    (positive : ∀ entry ∈ entries, 0 < entry.1.raw)
    (short : ∀ entry ∈ entries, (Utf8.encode entry.2).length < 2 ^ 32) (rest : Bytes) :
    empty.load (magic ++ (entries.flatMap entryBytes ++ wordBytes 4 0 ++ rest)) =
      (entries.foldl (fun table entry => table.store entry.1 entry.2) empty, .ok rest) := by
  have reads : ∀ entry ∈ entries, ∀ rest,
      readEntry (entryBytes entry ++ rest) = .ok (some entry, rest) := fun entry mem rest =>
    readEntry_entryBytes (positive entry mem) (short entry mem) rest
  have takes : ∀ entry : TextKey × String, entryBytes entry ≠ [] := by
    intro entry nothing
    have length := congrArg List.length nothing
    simp [entryBytes, Codec.textKey, Codec.u32] at length
  unfold load
  rw [Reader.bytes_append]
  simp only [if_true]
  exact InPlace.loadList_flatMap entries rest reads readEntry_end takes empty

/-- The bytes of a table are read to their end and restore its entries, if no entry has the key zero
and each text is short enough for its length to be written. -/
theorem load_save {t : TextTable} (positive : ∀ entry ∈ t.toList, 0 < entry.1.raw)
    (short : ∀ entry ∈ t.toList, (Utf8.encode entry.2).length < 2 ^ 32) (rest : Bytes) :
    empty.load (t.save ++ rest) = (t.rebuilt, .ok rest) := by
  unfold save
  rw [List.append_assoc, List.append_assoc, ← List.append_assoc (t.toList.flatMap entryBytes)]
  exact load_entries positive short rest

/-- An entry with the key zero comes first. So the bytes of a table that has one start like those of a
table without entries, and go on after them. -/
theorem save_of_zero {t : TextTable} (sorted : t.texts.Sorted)
    (zero : ∃ entry ∈ t.toList, entry.1.raw = 0) :
    ∃ more, more ≠ [] ∧ t.save = magic ++ (wordBytes 4 0 ++ more) := by
  obtain ⟨entry, mem, is⟩ := zero
  change t.toList.Pairwise _ at sorted
  unfold save
  cases entries : t.toList with
  | nil => exact absurd (entries ▸ mem) List.not_mem_nil
  | cons first others =>
    rw [entries] at sorted mem
    have least : first.1.raw = 0 := by
      rcases List.mem_cons.1 mem with rfl | after
      · exact is
      · have below : first.1.raw < entry.1.raw := (List.pairwise_cons.1 sorted).1 entry after
        rw [is] at below
        exact absurd below UInt32.not_lt_zero
    have key : Codec.textKey.encode first.1 = wordBytes 4 0 := by
      simp [Codec.textKey, Codec.u32, least]
    refine ⟨wordBytes 4 (Utf8.encode first.2).length ++ (Utf8.encode first.2 ++
      (others.flatMap entryBytes ++ wordBytes 4 0)), ?_, ?_⟩
    · intro nothing
      have length := congrArg List.length nothing
      simp at length
    · simp only [List.flatMap_cons, entryBytes, key, List.append_assoc]

/-- Bytes that start like those of a table without entries are read as one. -/
theorem load_nothing (rest : Bytes) :
    empty.load (magic ++ (wordBytes 4 0 ++ rest)) = (empty, .ok rest) :=
  load_entries (List.forall_mem_nil _) (List.forall_mem_nil _) rest

/-- The bytes of a table can be read if each text is short enough. An entry with the key zero hides
those after it. -/
theorem exists_load_save {t : TextTable} (sorted : t.texts.Sorted)
    (short : ∀ entry ∈ t.toList, (Utf8.encode entry.2).length < 2 ^ 32) :
    ∃ read left, empty.load t.save = (read, .ok left) := by
  by_cases zero : ∃ entry ∈ t.toList, entry.1.raw = 0
  · obtain ⟨more, -, bytes⟩ := save_of_zero sorted zero
    rw [bytes]
    exact ⟨_, _, load_nothing more⟩
  · have positive : ∀ entry ∈ t.toList, 0 < entry.1.raw := fun entry mem =>
      UInt32.pos_iff_ne_zero.2 fun is => zero ⟨entry, mem, is⟩
    have loaded := load_save positive short []
    rw [List.append_nil] at loaded
    exact ⟨_, _, loaded⟩

end TextTable

namespace Graph

/-- Remembering what a node stands for keeps the texts. -/
theorem texts_remember (g : Graph) (key : SingletonKey) (id : NodeId) :
    (g.remember key id).texts = g.texts := by
  unfold remember
  split <;> rfl

/-- An edit keeps what interning and loading keep of the texts. -/
theorem Edit.texts_preserves {rule : NodeKind → Attributes → Prop} {P : TextTable → Prop}
    (intern : ∀ t s, P t → P (TextTable.intern t s).2)
    (load : ∀ t input, P t → P (TextTable.load t input).1) {g h : Graph} (edit : Edit rule g h)
    (before : P g.texts) : P h.texts := by
  cases edit with
  | create concrete => exact before
  | createAt concrete valid hole => exact before
  | touch cosmetic => exact before
  | widen found wider => exact before
  | link accepts =>
    rw [texts_link]
    exact before
  | sever found points =>
    rw [texts_unlink]
    exact before
  | intern s => exact intern g.texts s before
  | loadTexts input => exact load g.texts input before
  | index selector => exact before
  | filter filter filterOn => exact before
  | language language => exact before
  | remember key id =>
    rw [texts_remember]
    exact before

/-- An edit keeps the keys of texts in order. -/
theorem Edit.numbered {rule : NodeKind → Attributes → Prop} {g h : Graph} (edit : Edit rule g h)
    (numbered : g.texts.Numbered) : h.texts.Numbered :=
  edit.texts_preserves (P := TextTable.Numbered) (fun _ s before => before.intern s)
    (fun _ input before => before.load input) numbered

/-- The last key stays used. -/
theorem Edit.unused {rule : NodeKind → Attributes → Prop} {g h : Graph} (edit : Edit rule g h)
    (unused : h.texts.texts.find? TextTable.lastKey = none) :
    g.texts.texts.find? TextTable.lastKey = none := by
  contrapose! unused
  refine edit.texts_preserves (P := fun t => t.texts.find? TextTable.lastKey ≠ none) ?_ ?_ unused
  · exact fun t s used free => used (TextTable.unused_of_intern free)
  · exact fun t input used free => used (TextTable.unused_of_load free)

/-- A step of loading keeps the keys of texts in order. -/
theorem LoadStep.numbered {g h : Graph} (step : LoadStep g h) (numbered : g.texts.Numbered) :
    h.texts.Numbered := by
  cases step with
  | fill concrete valid hole input => exact numbered
  | texts input => exact numbered.load input
  | intern s => exact numbered.intern s
  | adopt contains lists => exact numbered
  | values singletons => exact numbered
  | places root fileSystem systemComponent => exact numbered

/-- Whatever is done to a new graph, the keys of its texts stand in order, and lie below the next
new one while the last key is unused. -/
theorem numbered_after (language : Language) (history : List Operation) :
    ((new language).after history).texts.Numbered := by
  let Inv : Graph → Prop := fun g => g.texts.Numbered
  have edits : ∀ g h, Edit (fun _ _ => True) g h → Inv g → Inv h := fun _ _ edit => edit.numbered
  have loads : ∀ g h, LoadStep g h → Inv g → Inv h := fun _ _ step => step.numbered
  exact preserves_after edits loads (fun _ _ => TextTable.numbered_empty) language history

end Graph

end CodeGraph
