import CodeGraph.Proofs.HeaderRecords
import CodeGraph.Proofs.Texts
import Mathlib.Data.String.Basic

/-!
# The header of a saved graph

A graph that is saved without headers gets one header record, with the properties of the file. Its
bytes can be read back, whatever headers the reader brings along, and tell a language that is
accepted. Main statements: `Properties.load_encode` and `GraphFile.loadHeaders_writeHeaders`.
-/

set_option autoImplicit false

namespace CodeGraph

/-! ## Sinks without a limit -/

namespace Sink

/-- A sink without a limit that has taken some bytes. -/
def holding (bytes : Bytes) : Sink :=
  { reversed := bytes.reverse }

/-- What is put into a sink without a limit is held behind what it took before. -/
theorem put_holding (before bytes : Bytes) :
    (holding before).put bytes = holding (before ++ bytes) := by
  simp [holding, put]

/-- A sink without a limit has written what it holds. -/
theorem written_holding (bytes : Bytes) : (holding bytes).written = bytes := by
  simp [holding, written]

end Sink

/-! ## Properties -/

namespace Properties

/-- The bytes of a property restore its key and its value. -/
theorem readEntry_encode {key value : String} {keyBytes valueBytes : Bytes}
    (keyWritten : Codec.encodeShortText key = .ok keyBytes)
    (valueWritten : Codec.encodeShortText value = .ok valueBytes) (rest : Bytes) :
    readEntry (keyBytes ++ valueBytes ++ rest) = .ok ((key, value), rest) := by
  unfold readEntry
  simp only [Reader.bind_apply, List.append_assoc, Codec.decodeShortText_append keyWritten,
    Codec.decodeShortText_append valueWritten, Reader.pure_apply]

/-- Entries that could be written are those of their bytes. -/
theorem encodeEntries_cons {key value : String} {entries : List (String × String)} {bytes : Bytes}
    (written : encodeEntries ((key, value) :: entries) = .ok bytes) :
    ∃ keyBytes valueBytes others, Codec.encodeShortText key = .ok keyBytes ∧
      Codec.encodeShortText value = .ok valueBytes ∧ encodeEntries entries = .ok others ∧
      bytes = keyBytes ++ valueBytes ++ others := by
  unfold encodeEntries at written
  cases keyWritten : Codec.encodeShortText key with
  | error cause => simp [keyWritten, bind, Except.bind] at written
  | ok keyBytes =>
    cases valueWritten : Codec.encodeShortText value with
    | error cause => simp [keyWritten, valueWritten, bind, Except.bind] at written
    | ok valueBytes =>
      cases othersWritten : encodeEntries entries with
      | error cause => simp [keyWritten, valueWritten, othersWritten, bind, Except.bind] at written
      | ok others =>
        simp only [keyWritten, valueWritten, othersWritten, bind, Except.bind] at written
        cases written
        exact ⟨keyBytes, valueBytes, others, rfl, rfl, rfl, rfl⟩

/-- The bytes of some properties set them, on top of those that are there. -/
theorem loadTimes_encodeEntries {entries : List (String × String)} {bytes : Bytes}
    (written : encodeEntries entries = .ok bytes) (p : Properties) (rest : Bytes) :
    InPlace.loadTimes (InPlace.loadOne readEntry fun entry p => p.set entry.1 entry.2)
        entries.length p (bytes ++ rest) =
      (entries.foldl (fun p entry => p.set entry.1 entry.2) p, .ok rest) := by
  induction entries generalizing p bytes with
  | nil =>
    cases written
    rfl
  | cons entry entries ih =>
    obtain ⟨keyBytes, valueBytes, others, keyWritten, valueWritten, othersWritten, rfl⟩ :=
      encodeEntries_cons written
    have first := readEntry_encode keyWritten valueWritten (others ++ rest)
    rw [← List.append_assoc] at first
    rw [List.length_cons]
    unfold InPlace.loadTimes InPlace.loadOne
    simp only [first]
    exact ih othersWritten (p.set entry.1 entry.2)

/-- The bytes of properties set them, on top of those that are there. -/
theorem load_append {p : Properties} {bytes : Bytes} (written : p.encode = .ok bytes)
    (few : p.size < 2 ^ 32) (q : Properties) (rest : Bytes) :
    q.load (bytes ++ rest) = (p.toList.foldl (fun q entry => q.set entry.1 entry.2) q, .ok rest) := by
  unfold encode at written
  cases body : encodeEntries p.toList with
  | error cause => simp [body, Except.map] at written
  | ok entries =>
    simp only [body, Except.map] at written
    cases written
    have count : p.size % wordRange 4 = p.toList.length := Nat.mod_eq_of_lt few
    unfold load InPlace.loadCounted
    rw [List.append_assoc, Reader.word_wordBytes]
    simp only [count]
    exact loadTimes_encodeEntries body q rest

/-- The bytes of properties restore them. -/
theorem load_encode {p : Properties} {bytes : Bytes} (written : p.encode = .ok bytes)
    (few : p.size < 2 ^ 32) (sorted : p.values.Sorted) :
    empty.load bytes = (p, .ok []) := by
  have values : ∀ (entries : List (String × String)) (q : Properties),
      (entries.foldl (fun q entry => q.set entry.1 entry.2) q).values =
        entries.foldl (fun made entry => made.insert entry.1 entry.2) q.values := by
    intro entries
    induction entries with
    | nil => exact fun q => rfl
    | cons entry entries ih => exact fun q => ih (q.set entry.1 entry.2)
  have loaded := load_append written few empty []
  rw [List.append_nil] at loaded
  rw [loaded]
  have restored := (values p.toList empty).trans sorted.foldl_insert
  exact congrArg (fun values => ((⟨values⟩ : Properties), Except.ok [])) restored

/-- Setting a property changes no other one. -/
theorem get?_set (p : Properties) (key other value : String) :
    (p.set key value).get? other = if other = key then some value else p.get? other := by
  unfold get? set
  split
  · next same =>
    subst same
    exact SortedMap.find?_insert_same _ _ _
  · next different => exact SortedMap.find?_insert_other _ different _

/-- The properties that are filled in are accepted. -/
theorem problems_describe (p : Properties) (language : Language) :
    (p.describe language).problems = [] := by
  have apart : typeKey ≠ apiVersionKey ∧ typeKey ≠ binaryVersionKey ∧ typeKey ≠ languageKey ∧
      apiVersionKey ≠ binaryVersionKey ∧ apiVersionKey ≠ languageKey ∧
      binaryVersionKey ≠ languageKey := by decide
  obtain ⟨ta, tb, tl, ab, al, bl⟩ := apart
  unfold problems checkValue describe
  simp only [get?_set, ta, tb, tl, ab, al, bl, if_true, if_false, List.append_nil]

/-- The properties that are filled in tell the language. -/
theorem language?_describe (p : Properties) (language : Language) :
    (p.describe language).language? = some language := by
  have number : Decimal.read? (toString (Enumerated.code language)) =
      some (Int32.ofNat (Enumerated.code language)) := by
    cases language <;> decide +kernel
  have positive : 0 ≤ (Int32.ofNat (Enumerated.code language)).toInt ∧
      (Int32.ofNat (Enumerated.code language)).toInt.toNat = Enumerated.code language := by
    cases language <;> decide
  unfold language? getNumber? describe
  rw [get?_set, if_pos rfl, Option.bind_some, number]
  simp only [positive.1, if_true, positive.2, Enumerated.ofCode?_code]

/-- The properties of a file stand in the order of their keys. -/
theorem sorted_describe (language : Language) : (empty.describe language).values.Sorted :=
  (((SortedMap.sorted_empty.insert _ _).insert _ _).insert _ _).insert _ _

/-- What is filled in can be written. -/
theorem exists_encode_describe (language : Language) :
    ∃ body, (empty.describe language).encode = .ok body ∧ body.length < 2 ^ 16 := by
  have fits : ((empty.describe language).encode.toOption.any fun body =>
      decide (body.length < 2 ^ 16)) = true := by
    cases language <;> decide +kernel
  cases written : (empty.describe language).encode with
  | error cause => simp [written, Except.toOption] at fits
  | ok body =>
    refine ⟨body, rfl, ?_⟩
    simpa [written, Except.toOption] using fits

/-- Written properties take at least a byte each, after their number. -/
theorem exists_of_encode {p : Properties} {bytes : Bytes} (written : p.encode = .ok bytes) :
    ∃ entries, bytes = wordBytes 4 p.size ++ entries ∧ p.size ≤ entries.length := by
  have counted : ∀ (entries : List (String × String)) (bytes : Bytes),
      encodeEntries entries = .ok bytes → entries.length ≤ bytes.length := by
    intro entries
    induction entries with
    | nil => exact fun _ _ => Nat.zero_le _
    | cons entry entries ih =>
      intro bytes written
      obtain ⟨keyBytes, valueBytes, others, keyWritten, -, othersWritten, rfl⟩ :=
        encodeEntries_cons written
      have some : 2 ≤ keyBytes.length := by
        unfold Codec.encodeShortText at keyWritten
        simp only at keyWritten
        split at keyWritten
        · cases keyWritten
          simp
        · cases keyWritten
      have rest := ih others othersWritten
      simp only [List.length_cons, List.length_append]
      omega
  unfold encode at written
  cases body : encodeEntries p.toList with
  | error cause => simp [body, Except.map] at written
  | ok entries =>
    simp only [body, Except.map] at written
    cases written
    exact ⟨entries, rfl, counted p.toList entries body⟩

end Properties

/-! ## The header record -/

/-- Whatever header of that kind the reader has, written properties can be read into it. -/
theorem Header.loadFirst_properties {p : Properties} {body : Bytes} (written : p.encode = .ok body)
    (few : p.size < 2 ^ 32) (headers : List Header) :
    ∃ read, loadFirst .properties body headers = (read, .ok ()) := by
  induction headers with
  | nil => exact ⟨[], rfl⟩
  | cons h headers ih =>
    unfold loadFirst
    by_cases stored : h.kind = .properties
    · rw [if_pos stored]
      cases h with
      | properties q =>
        have loaded := Properties.load_append written few q []
        rw [List.append_nil] at loaded
        simp only [load, loaded]
        exact ⟨_, rfl⟩
      | overrides o => cases stored
      | unread kind content =>
        -- the number of properties is taken for a length, and there are that many bytes
        obtain ⟨entries, rfl, enough⟩ := Properties.exists_of_encode written
        have length : p.size % wordRange 4 = p.size := Nat.mod_eq_of_lt few
        have taken : (entries.take p.size).length = p.size := by
          rw [List.length_take]
          omega
        simp only [load, InPlace.loadOne, readContent, Reader.bind_apply, Reader.word_wordBytes,
          length, Reader.bytes, taken, if_true]
        exact ⟨_, rfl⟩
    · rw [if_neg stored]
      obtain ⟨read, same⟩ := ih
      simp only [same]
      exact ⟨_, rfl⟩

namespace GraphFile

/-- Properties that are filled in are accepted, and tell the language. -/
theorem acceptedLanguage_describe (p : Properties) (language : Language) :
    acceptedLanguage (some (p.describe language)) = .ok language := by
  unfold acceptedLanguage
  simp only [Properties.problems_describe, Properties.language?_describe, List.isEmpty_nil, if_true]

/-- The bytes of the header records that a graph saved without headers has can be read, and tell
its language. -/
theorem loadHeaders_writeHeaders (language : Language) :
    ∃ bytes, (∀ before, writeHeaders language [] (.holding before) =
        ([], .holding (before ++ bytes))) ∧
      ∀ headers rest, ∃ scan, loadHeaders headers (bytes ++ rest) = (scan, .ok rest) ∧
        acceptedLanguage scan.properties = .ok language := by
  obtain ⟨body, written, short⟩ := Properties.exists_encode_describe language
  have framed : body.length + 8 < UInt64.size := by
    unfold UInt64.size
    omega
  have four : (Properties.empty.describe language).size = 4 := by cases language <;> decide
  have few : (Properties.empty.describe language).size < 2 ^ 32 := by rw [four]; decide
  let own : Record := ⟨0, body, framed⟩
  refine ⟨recordBytes [own], fun before => ?_, fun headers rest => ?_⟩
  · have code : Enumerated.code HeaderKind.properties = own.code.toNat := rfl
    unfold writeHeaders recordBytes Record.bytes
    simp only [List.filter_nil, List.any_nil, Bool.false_eq_true, if_false, List.foldl_nil,
      List.length_nil, writeRecord, Sink.put_holding, Header.kind, Header.encode, written, Except.map,
      Sink.putResult, List.append_assoc, Nat.zero_add, code, List.flatMap_singleton,
      List.length_singleton, own]
  · obtain ⟨read, taken⟩ := Header.loadFirst_properties written few headers
    have restored := Properties.load_encode written few (Properties.sorted_describe language)
    have known : own.kind? = some .properties := rfl
    have one : [own].length < UInt32.size := by
      rw [List.length_singleton]
      decide
    refine ⟨⟨read, some _⟩, ?_, acceptedLanguage_describe .empty language⟩
    rw [loadHeaders_records one]
    simp only [HeaderScan.takeAll, HeaderScan.takeRecord, known, HeaderScan.take, if_true, own,
      restored, taken]
    rfl

end GraphFile

end CodeGraph
