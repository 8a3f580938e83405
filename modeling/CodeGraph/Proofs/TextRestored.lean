import CodeGraph.Proofs.TextHistories

/-!
# Text tables that are stored and read again

The bytes of a text table hold its texts by key. Neither the keys by text nor the next new key are
stored: reading the bytes stores one text after another, in the order of the keys, and both come about
on the way. The next new key is the same again, since in every table it follows the largest key in
use. The keys by text are the same again if every key is that of its text; a text that stands under
two keys may come back under the other one. Then the table that is read is the table that was stored
(`TextTable.rebuilt_eq_self`), and nothing that is done later tells them apart. All this ends with the
last key: the number after it is zero, which ends the bytes of a table when it is read, and from there
on numbering starts again. Main statement: `TextTable.table_restored_after`;
`TextTable.table_lost_after_last_key` has tables that do not come back.
-/

set_option autoImplicit false

namespace CodeGraph

namespace TextTable

variable {t u : TextTable}

/-! ## What the texts alone tell -/

/-- Of tables with the same texts, none has a larger next key, while the last key is unused. -/
theorem Regular.nextKey_le (regular : t.Regular) (numbered : u.Numbered) (texts : t.texts = u.texts)
    (unused : u.texts.find? lastKey = none) : t.nextKey ≤ u.nextKey := by
  obtain ⟨positive, below⟩ := numbered.inRange unused
  rcases regular.follows with ⟨-, first⟩ | ⟨key, s, found, last⟩
  · rw [first, UInt32.le_iff_toNat_le]
    exact UInt32.lt_iff_toNat_lt.1 positive
  · rw [texts] at found
    have less : key.raw < u.nextKey := (below _ (SortedMap.mem_of_find? found)).2
    have small := u.nextKey.toNat_lt
    rw [UInt32.lt_iff_toNat_lt] at less
    rw [last, UInt32.le_iff_toNat_le, UInt32.toNat_add]
    change (_ + 1) % _ ≤ _
    omega

/-- Every key is that of its text. -/
def Complete (t : TextTable) : Prop :=
  ∀ key s, t.texts.find? key = some s → t.keys.find? s = some key

/-- If every key is that of its text, keys are found by text just as texts by key. -/
theorem keys_find?_iff (consistent : t.Consistent) (complete : t.Complete) (key : TextKey)
    (s : String) : t.keys.find? s = some key ↔ t.texts.find? key = some s :=
  ⟨consistent s key, complete key s⟩

/-- Tables in which every key is that of its text are told by their texts, while the last key is
unused. -/
theorem Regular.eq_of_texts (regular : t.Regular) (regular' : u.Regular) (complete : t.Complete)
    (complete' : u.Complete) (texts : t.texts = u.texts) (unused : t.texts.find? lastKey = none) :
    t = u := by
  have next : t.nextKey = u.nextKey :=
    UInt32.le_antisymm (regular.nextKey_le regular'.numbered texts (texts ▸ unused))
      (regular'.nextKey_le regular.numbered texts.symm unused)
  have keys : t.keys = u.keys := by
    refine regular.ordered.ext regular'.ordered fun s => Option.ext fun key => ?_
    rw [keys_find?_iff regular.consistent complete, keys_find?_iff regular'.consistent complete', texts]
  cases t
  cases u
  cases texts
  cases keys
  cases next
  rfl

/-! ## What is read again -/

/-- Storing a text keeps every key that of its text, if the key has no other text and the text no other
key. -/
theorem Complete.store (complete : t.Complete) {key : TextKey} {s : String}
    (noText : ∀ x, t.texts.find? key = some x → x = s)
    (noKey : ∀ k, t.texts.find? k = some s → k = key) : (t.store key s).Complete := by
  intro k x found
  have texts : (t.store key s).texts = t.texts.insert key s := rfl
  rw [texts] at found
  unfold TextTable.store
  by_cases here : k = key
  · rw [here, SortedMap.find?_insert_same] at found
    rw [← Option.some.inj found, here]
    exact SortedMap.find?_insert_same _ _ _
  · rw [SortedMap.find?_insert_other _ here] at found
    have other : x ≠ s := fun same => here (noKey k (same ▸ found))
    simp only [SortedMap.find?_insert_other _ other]
    cases previous : t.texts.find? key with
    | none => exact complete k x found
    | some replaced =>
      rw [noText replaced previous, SortedMap.find?_erase, if_neg other]
      exact complete k x found

/-- The table that entries make is regular, if none of them has the key zero. -/
theorem regular_rebuilt (positive : ∀ entry ∈ t.toList, 0 < entry.1.raw) : t.rebuilt.Regular :=
  List.foldlRecOn (motive := Regular) t.toList _ regular_empty fun _ regular entry mem =>
    regular.store (fun _ => positive entry mem) entry.2

/-- If every key of a table is that of its text, then so it is at every point of reading the table
again, where there are some of its texts. -/
theorem complete_rebuilt (sorted : t.texts.Sorted) (complete : t.Complete) : t.rebuilt.Complete := by
  let Part (u : TextTable) : Prop :=
    u.Complete ∧ ∀ key s, u.texts.find? key = some s → t.texts.find? key = some s
  have start : Part empty := by
    constructor <;> intro key s found <;> cases found
  refine (List.foldlRecOn (motive := Part) t.toList _ start ?_).1
  rintro u ⟨whole, part⟩ entry mem
  have there : t.texts.find? entry.1 = some entry.2 := sorted.find?_of_mem mem
  refine ⟨whole.store (fun x found => ?_) fun k found => ?_, fun k x found => ?_⟩
  · exact Option.some.inj ((part _ _ found).symm.trans there)
  · have known := complete k entry.2 (part _ _ found)
    exact Option.some.inj (known.symm.trans (complete entry.1 entry.2 there))
  · have texts : (u.store entry.1 entry.2).texts = u.texts.insert entry.1 entry.2 := rfl
    rw [texts] at found
    by_cases here : k = entry.1
    · rw [here, SortedMap.find?_insert_same] at found
      rw [here, there, found]
    · rw [SortedMap.find?_insert_other _ here] at found
      exact part k x found

/-- A table in which every key is that of its text is the one that its entries make. -/
theorem rebuilt_eq_self (regular : t.Regular) (unused : t.texts.find? lastKey = none)
    (complete : t.Complete) : t.rebuilt = t := by
  have sorted := regular.numbered.sorted
  have positive : ∀ entry ∈ t.toList, 0 < entry.1.raw := fun entry mem =>
    ((regular.numbered.inRange unused).2 entry mem).1
  have texts : t.rebuilt.texts = t.texts := texts_rebuilt sorted
  exact (regular_rebuilt positive).eq_of_texts regular (complete_rebuilt sorted complete) complete
    texts (texts ▸ unused)

/-- It is enough that every entry is found by its text: the empty text cannot be found by a key in
use. -/
theorem complete_of_entries (numbered : t.Numbered) (unused : t.texts.find? lastKey = none)
    (found : ∀ entry ∈ t.toList, t.keyOf? entry.2 = some entry.1) : t.Complete := by
  intro key s there
  have known : t.keyOf? s = some key := found _ (SortedMap.mem_of_find? there)
  have nonzero := isEmpty_of_find? numbered unused there
  unfold keyOf? at known
  split at known
  · rw [← Option.some.inj known] at nonzero
    cases nonzero
  · exact known

/-- Whatever has been interned in a table and read into it, as long as every text is short enough for
its length to be written. If no text has the key zero, the bytes of the table are read into a new table
to their end and no further, and give the same entries, in the order of their keys. If moreover no text
has the last key and every key is found by its text, then the table that was read finds the same keys
as the old one and gives new texts the same keys, whatever is done to both of them later. If a text has
the key zero, nothing is read again. -/
theorem table_restored_after (changes : List Change)
    (short : ∀ entry ∈ (empty.after changes).toList, (Utf8.encode entry.2).length < 2 ^ 32)
    (rest : Bytes) :
    let t := empty.after changes
    ((∀ entry ∈ t.toList, 0 < entry.1.raw) →
      ∃ loaded, empty.load (t.save ++ rest) = (loaded, .ok rest) ∧ loaded.toList = t.toList ∧
        (loaded.toList.Pairwise fun a b => a.1 < b.1) ∧
        (t.SparesLastKey → (∀ entry ∈ t.toList, t.keyOf? entry.2 = some entry.1) → ∀ later s,
          (loaded.after later).keyOf? s = (t.after later).keyOf? s ∧
          ((loaded.after later).intern s).1 = ((t.after later).intern s).1)) ∧
      ((∃ entry ∈ t.toList, entry.1.raw = 0) →
        ∃ left, left ≠ rest ∧ empty.load (t.save ++ rest) = (empty, .ok left)) := by
  intro t
  have regular : t.Regular := regular_after changes
  have sorted := regular.numbered.sorted
  constructor
  · intro positive
    have entries : t.rebuilt.toList = t.toList := congrArg SortedMap.entries (texts_rebuilt sorted)
    refine ⟨t.rebuilt, load_save positive short rest, entries, entries ▸ sorted, ?_⟩
    intro spares found later s
    have complete := complete_of_entries regular.numbered spares.unused found
    rw [rebuilt_eq_self regular spares.unused complete]
    exact ⟨rfl, rfl⟩
  · intro zero
    obtain ⟨more, some, bytes⟩ := save_of_zero sorted zero
    refine ⟨more ++ rest, fun same => some (List.append_left_eq_self.1 same), ?_⟩
    rw [bytes, List.append_assoc, List.append_assoc]
    exact load_nothing (more ++ rest)

/-- Changes that read a table with holes, intern a text behind the last of them, and read a table that
puts another text under one of the keys and then breaks off. -/
def rebindingChanges : List Change :=
  [.load (magic ++ [(⟨5⟩, "b"), (⟨2⟩, "a")].flatMap entryBytes ++ wordBytes 4 0), .intern "c",
    .load (magic ++ entryBytes (⟨5⟩, "d"))]

/-- The bytes of such a table, with others behind them, give it back. The text that lost its key gets the
same new one in both tables. -/
theorem table_restored_after_rebinding :
    let t := empty.after rebindingChanges
    t.SparesLastKey ∧ t.toList = [(⟨2⟩, "a"), (⟨5⟩, "d"), (⟨6⟩, "c")] ∧
      ∃ loaded, empty.load (t.save ++ [7]) = (loaded, .ok [7]) ∧ loaded.toList = t.toList ∧
        loaded.keyOf? "d" = some ⟨5⟩ ∧ (loaded.intern "b").1 = ⟨7⟩ := by
  intro t
  have facts : t.SparesLastKey ∧ t.toList = [(⟨2⟩, "a"), (⟨5⟩, "d"), (⟨6⟩, "c")] ∧
      (∀ entry ∈ t.toList, (Utf8.encode entry.2).length < 2 ^ 32) ∧
      (∀ entry ∈ t.toList, 0 < entry.1.raw) ∧
      (∀ entry ∈ t.toList, t.keyOf? entry.2 = some entry.1) ∧ t.keyOf? "d" = some ⟨5⟩ ∧
      (t.intern "b").1 = ⟨7⟩ := by
    decide +kernel
  obtain ⟨spares, entries, short, positive, found, known, new⟩ := facts
  obtain ⟨loaded, read, same, -, agree⟩ :=
    (table_restored_after rebindingChanges short [7]).1 positive
  exact ⟨spares, entries, loaded, read, same, (agree spares found [] "d").1.trans known,
    (agree spares found [] "b").2.trans new⟩

/-- Changes that read a text under the last key and intern another one, which gets the key zero. -/
def lastKeyChanges : List Change :=
  [.load (magic ++ entryBytes (lastKey, "a") ++ wordBytes 4 0), .intern "b"]

/-- Changes that read a text under the last key and then one under another key. -/
def renumberingChanges : List Change :=
  [.load (magic ++ entryBytes (lastKey, "a") ++ wordBytes 4 0),
    .load (magic ++ entryBytes (⟨5⟩, "c") ++ wordBytes 4 0)]

/-- A table with a text under the key zero is read again as an empty one. A table with a text under the
last key and none under zero is read again whole, but the next new text gets another key. -/
theorem table_lost_after_last_key :
    let t := empty.after lastKeyChanges
    let u := empty.after renumberingChanges
    t.toList = [(⟨0⟩, "b"), (lastKey, "a")] ∧ (empty.load t.save).1 = empty ∧
      u.toList = [(⟨5⟩, "c"), (lastKey, "a")] ∧
      (∀ entry ∈ u.toList, u.keyOf? entry.2 = some entry.1) ∧
      (empty.load u.save).1.toList = u.toList ∧
      (u.intern "b").1 = ⟨6⟩ ∧ ((empty.load u.save).1.intern "b").1 = ⟨0⟩ := by
  decide +kernel

end TextTable

end CodeGraph
