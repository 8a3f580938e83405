import CodeGraph.Proofs.HeaderRecords

/-!
# The verdict on a file and what loading it does

A check and a load read the same header records, each in its own way. Bytes that can be read as header
records are those of one list of records, and what is seen of the properties is the last record that
holds some (`properties_takeAll`). A load changes nothing before the header is accepted
(`load_of_not_accepted`), and a header is accepted exactly if it passes the check and its properties
name a language. Main statement: `check_agrees_with_load`.
-/

set_option autoImplicit false

namespace CodeGraph

/-! ## What was read -/

/-- A number that was read stands at the front of the bytes. -/
theorem Reader.word_eq_ok {width n : Nat} {input rest : Bytes}
    (read : word width input = .ok (n, rest)) :
    input = wordBytes width n ++ rest ∧ n < wordRange width := by
  induction width generalizing n input with
  | zero =>
    cases read
    exact ⟨rfl, Nat.zero_lt_one⟩
  | succ width ih =>
    cases input with
    | nil => cases read
    | cons b input =>
      unfold word at read
      simp only [bind_apply, byte_cons] at read
      split at read
      · next high left higher =>
        cases read
        obtain ⟨rfl, small⟩ := ih higher
        have byte := b.toNat_lt
        have low : UInt8.ofNat (b.toNat + 256 * high) = b := by
          apply UInt8.toNat_inj.1
          rw [UInt8.toNat_ofNat']
          omega
        have shifted : (b.toNat + 256 * high) / 256 = high := by omega
        refine ⟨?_, ?_⟩
        · rw [wordBytes, low, shifted]
          rfl
        · rw [wordRange]
          omega
      · cases read

/-- Bytes that are taken stand at the front and are as many as asked for. -/
theorem Reader.bytes_eq_ok {n : Nat} {input taken rest : Bytes}
    (read : bytes n input = .ok (taken, rest)) : input = taken ++ rest ∧ taken.length = n := by
  unfold bytes at read
  simp only at read
  split at read
  · next full =>
    cases read
    exact ⟨(List.take_append_drop n input).symm, full⟩
  · cases read

/-- A block that was read stands at the front of the bytes, behind its size. -/
theorem Codec.decodeBlock_eq_ok {input body rest : Bytes}
    (read : decodeBlock input = .ok (body, rest)) :
    input = encodeBlock body ++ rest ∧ body.length + 8 < UInt64.size := by
  unfold decodeBlock at read
  rw [Reader.bind_apply] at read
  split at read
  · next size left sized =>
    obtain ⟨rfl, small⟩ := Reader.word_eq_ok sized
    split at read
    · cases read
    · next large =>
      obtain ⟨rfl, length⟩ := Reader.bytes_eq_ok read
      have counted : body.length + 8 = size := by omega
      unfold encodeBlock
      rw [counted, List.append_assoc]
      exact ⟨rfl, small⟩
  · cases read

namespace Properties

/-- Properties name a language if they have, under the key for it, the decimal number of its code. -/
def Names (p : Properties) (language : Language) : Prop :=
  ∃ value number, p.get? languageKey = some value ∧ Decimal.read? value = some number ∧
    number.toInt = Enumerated.code language

/-- Properties that tell a language name it. -/
theorem names_of_language? {p : Properties} {language : Language}
    (told : p.language? = some language) : p.Names language := by
  unfold language? at told
  split at told
  · next number read =>
    split at told
    · next positive =>
      obtain ⟨value, stored, decimal⟩ := Option.bind_eq_some_iff.1 read
      have code := Enumerated.code_of_ofCode? told
      exact ⟨value, number, stored, decimal, by omega⟩
    · cases told
  · cases told

/-- No property is missing or wrong in a way that would be called valid. -/
theorem valid_not_mem_problems (p : Properties) : FileVerdict.valid ∉ p.problems := by
  have checked : ∀ key expected missing wrong, FileVerdict.valid ≠ missing →
      FileVerdict.valid ≠ wrong → FileVerdict.valid ∉ p.checkValue key expected missing wrong := by
    intro key expected missing wrong notMissing notWrong
    unfold checkValue
    split
    · simpa using notMissing
    · split
      · exact List.not_mem_nil
      · simpa using notWrong
  unfold problems
  simp only [List.mem_append, not_or]
  exact ⟨⟨checked _ _ _ _ (by decide) (by decide), checked _ _ _ _ (by decide) (by decide)⟩,
    checked _ _ _ _ (by decide) (by decide)⟩

end Properties

namespace GraphFile

/-! ## Records that were read -/

/-- Only the bytes of a record are read as one. -/
theorem readRecord_eq_ok {input rest body : Bytes} {code : Nat}
    (read : readRecord input = .ok ((code, body), rest)) :
    ∃ r : Record, r.code.toNat = code ∧ r.body = body ∧ input = r.bytes ++ rest := by
  unfold readRecord at read
  rw [Reader.bind_apply] at read
  split at read
  · next code' afterCode coded =>
    rw [Reader.bind_apply] at read
    split at read
    · next body' afterBody blocked =>
      cases read
      obtain ⟨rfl, small⟩ := Reader.word_eq_ok coded
      obtain ⟨rfl, framed⟩ := Codec.decodeBlock_eq_ok blocked
      have number : (UInt16.ofNat code).toNat = code := UInt16.toNat_ofNat_of_lt' small
      refine ⟨⟨UInt16.ofNat code, body, framed⟩, number, rfl, ?_⟩
      unfold Record.bytes
      rw [number, List.append_assoc]
    · cases read
  · cases read

/-- Header records that are read to their end stand in the file one after another, and all are taken
into account. -/
theorem loadTimes_eq_ok {times : Nat} {scan found : HeaderScan} {input rest : Bytes}
    (loaded : InPlace.loadTimes loadRecord times scan input = (found, .ok rest)) :
    ∃ records : List Record, records.length = times ∧
      input = records.flatMap Record.bytes ++ rest ∧ scan.takeAll records = (found, .ok ()) := by
  induction times generalizing scan input with
  | zero =>
    cases loaded
    exact ⟨[], rfl, rfl, rfl⟩
  | succ times ih =>
    unfold InPlace.loadTimes at loaded
    cases read : readRecord input with
    | error cause =>
      simp only [loadRecord, read] at loaded
      cases loaded
    | ok taken =>
      obtain ⟨⟨code, body⟩, left⟩ := taken
      obtain ⟨r, -, -, rfl⟩ := readRecord_eq_ok read
      rw [loadRecord_bytes] at loaded
      rcases first : scan.takeRecord r with ⟨next, cause | done⟩
      · rw [first] at loaded
        cases loaded
      · rw [first] at loaded
        obtain ⟨records, rfl, rfl, taken⟩ := ih loaded
        refine ⟨r :: records, rfl, ?_, ?_⟩
        · rw [List.flatMap_cons, List.append_assoc]
        · rw [HeaderScan.takeAll, first]
          exact taken

/-- Bytes that can be read as header records are those of some records, which were taken into account
one by one. -/
theorem exists_records {headers : List Header} {input rest : Bytes} {scan : HeaderScan}
    (loaded : loadHeaders headers input = (scan, .ok rest)) :
    ∃ records : List Record, records.length < UInt32.size ∧ input = recordBytes records ++ rest ∧
      HeaderScan.takeAll { headers } records = (scan, .ok ()) := by
  unfold loadHeaders InPlace.loadCounted at loaded
  split at loaded
  · next count left counted =>
    obtain ⟨rfl, small⟩ := Reader.word_eq_ok counted
    obtain ⟨records, rfl, rfl, taken⟩ := loadTimes_eq_ok loaded
    refine ⟨records, small, ?_, taken⟩
    rw [recordBytes, List.append_assoc]
  · cases loaded

namespace Record

/-- Whether a record holds the properties of the file. -/
def holdsProperties (r : Record) : Bool :=
  r.kind? = some .properties

/-- The properties that the body of a record sets. -/
def properties (r : Record) : Properties :=
  (Properties.empty.load r.body).1

end Record

/-- The last record that holds properties. -/
def lastProperties? (records : List Record) : Option Record :=
  (records.filter Record.holdsProperties).getLast?

/-- The last properties are those of the later records, if these hold any. -/
theorem lastProperties?_cons (r : Record) (records : List Record) :
    lastProperties? (r :: records) =
      (lastProperties? records).or (if r.holdsProperties then some r else none) := by
  unfold lastProperties?
  by_cases holds : r.holdsProperties = true
  · rw [List.filter_cons_of_pos holds, List.getLast?_cons, if_pos holds]
    cases (records.filter Record.holdsProperties).getLast? <;> rfl
  · rw [List.filter_cons_of_neg holds, if_neg holds, Option.or_none]

namespace HeaderScan

/-- The properties of a file are those of the last record that holds some. -/
theorem properties_takeRecord {scan next : HeaderScan} {r : Record}
    (taken : scan.takeRecord r = (next, .ok ())) :
    next.properties = if r.holdsProperties then some r.properties else scan.properties := by
  unfold takeRecord at taken
  split at taken
  · next unknown =>
    cases taken
    simp [Record.holdsProperties, unknown]
  · next kind known =>
    unfold take at taken
    by_cases holds : kind = .properties
    · rw [if_pos holds] at taken
      split at taken
      · cases taken
      · next p _ read =>
        have own : r.properties = p := congrArg Prod.fst read
        rw [← (Prod.mk.inj taken).1, own]
        simp [Record.holdsProperties, known, holds]
    · rw [if_neg holds] at taken
      rw [← (Prod.mk.inj taken).1]
      simp [Record.holdsProperties, known, holds]

/-- After all records, the properties are those of the last record that holds some. -/
theorem properties_takeAll {records : List Record} {scan found : HeaderScan}
    (taken : scan.takeAll records = (found, .ok ())) :
    found.properties = ((lastProperties? records).map Record.properties).or scan.properties := by
  induction records generalizing scan with
  | nil =>
    cases taken
    rfl
  | cons r records ih =>
    unfold takeAll at taken
    split at taken
    · next next _ first =>
      rw [ih taken, properties_takeRecord first, lastProperties?_cons]
      cases lastProperties? records with
      | some last => rfl
      | none =>
        by_cases holds : r.holdsProperties = true
        · rw [if_pos holds, if_pos holds]
          rfl
        · rw [if_neg holds, if_neg holds]
          rfl
    · cases taken

end HeaderScan

/-! ## Files that are refused -/

/-- A file that starts with as many bytes as every graph file does, but with others. -/
def Foreign (input : Bytes) : Prop :=
  ∃ start rest, input = start ++ rest ∧ start.length = magic.length ∧ start ≠ magic

/-- A file that starts like a graph file is not foreign. -/
theorem not_foreign (rest : Bytes) : ¬ Foreign (magic ++ rest) := by
  rintro ⟨start, left, same, length, other⟩
  exact other (List.append_inj_left same length.symm).symm

/-- The header of a file is there, can be read, and tells a language. -/
def Accepted (headers : List Header) (input : Bytes) : Prop :=
  ∃ rest scan left language, input = magic ++ rest ∧ loadHeaders headers rest = (scan, .ok left) ∧
    acceptedLanguage scan.properties = .ok language

/-- Until the header is accepted a load changes nothing, and it succeeds only with foreign files. -/
theorem load_of_not_accepted {headers : List Header} {input : Bytes}
    (refused : ¬ Accepted headers input) (g : Graph) :
    (g.load headers input).2.2 = g ∧ (Foreign input → (g.load headers input).1 = .ok ()) ∧
      (¬ Foreign input → ∃ cause, (g.load headers input).1 = .error cause) := by
  have failing : ∀ (cause : Error) (left : List Header), ¬ Foreign input →
      g.load headers input = (.error cause, left, g) →
      (g.load headers input).2.2 = g ∧ (Foreign input → (g.load headers input).1 = .ok ()) ∧
        (¬ Foreign input → ∃ cause, (g.load headers input).1 = .error cause) := by
    intro cause left known outcome
    rw [outcome]
    exact ⟨rfl, fun foreign => absurd foreign known, fun _ => ⟨cause, rfl⟩⟩
  cases taken : Reader.bytes magic.length input with
  | error cause =>
    have short : ¬ Foreign input := by
      rintro ⟨start, rest, rfl, length, -⟩
      rw [← length, Reader.bytes_append] at taken
      cases taken
    refine failing cause headers short ?_
    unfold Graph.load
    rw [taken]
  | ok read =>
    obtain ⟨start, rest⟩ := read
    obtain ⟨rfl, length⟩ := Reader.bytes_eq_ok taken
    by_cases same : start = magic
    · subst same
      rcases told : loadHeaders headers rest with ⟨scan, cause | left⟩
      · refine failing cause scan.headers (not_foreign rest) ?_
        unfold Graph.load
        simp only [taken, if_true, told]
      · cases accepted : acceptedLanguage scan.properties with
        | error cause =>
          refine failing cause scan.headers (not_foreign rest) ?_
          unfold Graph.load
          simp only [taken, if_true, told, accepted]
        | ok language => exact absurd ⟨rest, scan, left, language, rfl, told, accepted⟩ refused
    · have outcome : g.load headers (start ++ rest) = (.ok (), headers, g) := by
        unfold Graph.load
        simp only [taken, if_neg same]
      rw [outcome]
      exact ⟨rfl, fun _ => rfl, fun known => absurd ⟨start, rest, rfl, length, same⟩ known⟩

/-- A language is accepted only from properties without problems that tell it. -/
theorem acceptedLanguage_eq_ok {properties : Option Properties} {language : Language}
    (accepted : acceptedLanguage properties = .ok language) :
    ∃ p, properties = some p ∧ p.problems = [] ∧ p.language? = some language := by
  unfold acceptedLanguage at accepted
  split at accepted
  · cases accepted
  · next p =>
    split at accepted
    · next fine =>
      split at accepted
      · next told =>
        cases accepted
        exact ⟨p, rfl, List.isEmpty_iff.1 fine, told⟩
      · cases accepted
    · cases accepted

/-- A file is valid exactly if its header can be read and nothing is wrong with its properties. -/
theorem check_eq_valid_iff {input : Bytes} :
    check (some input) = [.valid] ↔ ∃ rest scan left p, input = magic ++ rest ∧
      loadHeaders [] rest = (scan, .ok left) ∧ scan.properties = some p ∧ p.problems = [] := by
  constructor
  · intro valid
    unfold check problems at valid
    cases taken : Reader.bytes magic.length input with
    | error cause =>
      simp only [taken, bind, Except.bind] at valid
      cases valid
    | ok read =>
      obtain ⟨start, rest⟩ := read
      obtain ⟨rfl, -⟩ := Reader.bytes_eq_ok taken
      by_cases same : start = magic
      · subst same
        rcases told : loadHeaders [] rest with ⟨scan, cause | left⟩
        · simp only [taken, told, bind, Except.bind, if_true] at valid
          cases valid
        · simp only [taken, told, bind, Except.bind, if_true] at valid
          cases stored : scan.properties with
          | none =>
            simp only [stored] at valid
            cases valid
          | some p =>
            refine ⟨rest, scan, left, p, rfl, told, stored, ?_⟩
            simp only [stored, pure, Except.pure] at valid
            split at valid
            · next fine => exact Except.ok.inj fine
            · next found =>
              -- the problems found are never the verdict itself
              cases found
              have mem : FileVerdict.valid ∈ p.problems := valid ▸ List.mem_singleton.2 rfl
              exact absurd mem p.valid_not_mem_problems
            · cases valid
      · simp only [taken, bind, Except.bind, if_neg same] at valid
        cases valid
  · rintro ⟨rest, scan, left, p, rfl, told, stored, fine⟩
    unfold check problems
    simp only [Reader.bytes_append, told, stored, fine, bind, Except.bind, if_true]
    rfl

/-- A file whose header is accepted is found valid. -/
theorem check_of_accepted {input : Bytes} (accepted : Accepted [] input) :
    check (some input) = [.valid] := by
  obtain ⟨rest, scan, left, language, start, told, named⟩ := accepted
  obtain ⟨p, stored, fine, -⟩ := acceptedLanguage_eq_ok named
  exact check_eq_valid_iff.2 ⟨rest, scan, left, p, start, told, stored, fine⟩

/-- Loading into a graph and the verdict on the file agree. A file that is not valid leaves the graph as
it was; it is an error to load it, unless it is foreign. A file that starts as it should and loads is
valid. A valid file has a last record that holds properties, and if these name no language, the file
is refused and leaves the graph as it was. -/
theorem check_agrees_with_load (g : Graph) (input : Bytes) :
    (check (some input) ≠ [.valid] → (g.load [] input).2.2 = g ∧
      (Foreign input → (g.load [] input).1 = .ok ()) ∧
      (¬ Foreign input → ∃ cause, (g.load [] input).1 = .error cause)) ∧
    (magic <+: input → (g.load [] input).1 = .ok () → check (some input) = [.valid]) ∧
    (check (some input) = [.valid] →
      (∃ records rest r, records.length < UInt32.size ∧
        input = magic ++ (recordBytes records ++ rest) ∧ lastProperties? records = some r) ∧
      ∀ records rest r, records.length < UInt32.size →
        input = magic ++ (recordBytes records ++ rest) → lastProperties? records = some r →
        (∀ language, ¬ r.properties.Names language) →
        (∃ cause, (g.load [] input).1 = .error cause) ∧ (g.load [] input).2.2 = g) := by
  have invalid : check (some input) ≠ [.valid] → ¬ Accepted [] input :=
    fun invalid accepted => invalid (check_of_accepted accepted)
  refine ⟨fun refused => load_of_not_accepted (invalid refused) g, ?_, fun valid => ⟨?_, ?_⟩⟩
  · rintro ⟨rest, rfl⟩ loaded
    by_contra refused
    obtain ⟨-, -, fails⟩ := load_of_not_accepted (invalid refused) g
    obtain ⟨cause, failed⟩ := fails (not_foreign rest)
    rw [loaded] at failed
    cases failed
  · obtain ⟨rest, scan, left, p, rfl, told, stored, -⟩ := check_eq_valid_iff.1 valid
    obtain ⟨records, few, rfl, taken⟩ := exists_records told
    rw [HeaderScan.properties_takeAll taken, Option.or_none] at stored
    obtain ⟨r, last, -⟩ := Option.map_eq_some_iff.1 stored
    exact ⟨records, left, r, few, rfl, last⟩
  · rintro records rest r few rfl last nameless
    have refused : ¬ Accepted [] (magic ++ (recordBytes records ++ rest)) := by
      rintro ⟨rest', scan, left, language, start, told, named⟩
      rw [← List.append_cancel_left start, loadHeaders_records few] at told
      obtain ⟨scanned, outcome⟩ := Prod.mk.inj told
      cases done : (HeaderScan.takeAll { headers := [] } records).2 with
      | error cause =>
        rw [done] at outcome
        cases outcome
      | ok =>
        have taken : HeaderScan.takeAll { headers := [] } records = (scan, .ok ()) :=
          Prod.ext scanned done
        obtain ⟨p, stored, -, told⟩ := acceptedLanguage_eq_ok named
        rw [HeaderScan.properties_takeAll taken, last] at stored
        cases stored
        exact nameless language (Properties.names_of_language? told)
    obtain ⟨same, -, fails⟩ := load_of_not_accepted refused g
    exact ⟨fails (not_foreign _), same⟩

/-- A record of properties that pass the check but name no language. -/
def mutedRecord : Record :=
  ⟨0, (((Properties.empty.set Properties.typeKey Properties.fileType).set Properties.apiVersionKey
    Properties.apiVersion).set Properties.binaryVersionKey
    Properties.binaryVersion).encode.toOption.getD [], by decide +kernel⟩

/-- Two bytes of the magic are an error, and four other bytes are none. A file without nodes loads. With
a second record of properties, which names no language, it is still valid and is refused. -/
theorem check_agrees_with_load_muted :
    let rest := endOfNodes ++ TextTable.empty.save
    let whole := magic ++ (recordBytes [javaRecord] ++ rest)
    let muted := magic ++ (recordBytes [javaRecord, mutedRecord] ++ rest)
    (∀ g : Graph, (g.load [] [0x63, 0x73]).2.2 = g ∧
      ∃ cause, (g.load [] [0x63, 0x73]).1 = .error cause) ∧
    (∀ g : Graph, (g.load [] [0x50, 0x4B, 0x03, 0x04]).2.2 = g ∧
      (g.load [] [0x50, 0x4B, 0x03, 0x04]).1 = .ok ()) ∧
    ((Graph.new .java).load [] whole).1 = .ok () ∧ check (some whole) = [.valid] ∧
    check (some muted) = [.valid] ∧
    ∀ g : Graph, (∃ cause, (g.load [] muted).1 = .error cause) ∧ (g.load [] muted).2.2 = g := by
  dsimp only
  have facts : check (some [0x63, 0x73]) ≠ [.valid] ∧
      check (some [0x50, 0x4B, 0x03, 0x04]) ≠ [.valid] ∧
      ((Graph.new .java).load [] (magic ++ (recordBytes [javaRecord] ++
        (endOfNodes ++ TextTable.empty.save)))).1 = .ok () ∧
      check (some (magic ++ (recordBytes [javaRecord, mutedRecord] ++
        (endOfNodes ++ TextTable.empty.save)))) = [.valid] ∧
      mutedRecord.properties.get? Properties.languageKey = none := by decide +kernel
  obtain ⟨short, other, loads, valid, silent⟩ := facts
  have familiar : ¬ Foreign [0x63, 0x73] := by
    rintro ⟨start, rest, same, length, -⟩
    have lengths := congrArg List.length same
    rw [List.length_append, length] at lengths
    change 2 = 4 + rest.length at lengths
    omega
  have nameless : ∀ language, ¬ mutedRecord.properties.Names language := by
    rintro language ⟨value, number, stored, -⟩
    rw [silent] at stored
    cases stored
  refine ⟨fun g => ?_, fun g => ?_, loads, ?_, valid, fun g => ?_⟩
  · obtain ⟨same, -, fails⟩ := (check_agrees_with_load g [0x63, 0x73]).1 short
    exact ⟨same, fails familiar⟩
  · obtain ⟨same, succeeds, -⟩ := (check_agrees_with_load g [0x50, 0x4B, 0x03, 0x04]).1 other
    exact ⟨same, succeeds ⟨[0x50, 0x4B, 0x03, 0x04], [], rfl, rfl, by decide⟩⟩
  · exact (check_agrees_with_load (.new .java) _).2.1 (List.prefix_append _ _) loads
  · exact ((check_agrees_with_load g _).2.2 valid).2 [javaRecord, mutedRecord] _ mutedRecord
      (by decide) rfl rfl nameless

end GraphFile

end CodeGraph
