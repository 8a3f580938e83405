import CodeGraph.GraphFile.Check
import CodeGraph.GraphFile.Load
import CodeGraph.GraphFile.Save
import Mathlib.Data.List.Basic

/-!
# Header records one by one

A file that is well framed up to its nodes is a list of header records and a rest. Its records are
taken into account one after the other, up to the first that fails, and none of them changes which
kinds of headers the reader has. So a record that nobody asks for could as well be missing, wherever
it stands and whatever it holds, also in a file that is refused for another reason. Main statements:
`loadHeaders_records` and `unasked_record_ignored`.
-/

set_option autoImplicit false

namespace CodeGraph

namespace Header

variable {kind : HeaderKind} {input : Bytes}

/-- Reading a header keeps its kind. -/
theorem kind_load (h : Header) (input : Bytes) : (h.load input).1.kind = h.kind := by
  cases h with
  | properties p => rfl
  | overrides o => rfl
  | unread kind content =>
    simp only [load, InPlace.loadOne]
    split <;> rfl

/-- Reading a record changes no header into one of another kind. -/
theorem kinds_loadFirst (kind : HeaderKind) (input : Bytes) (headers : List Header) :
    (loadFirst kind input headers).1.map Header.kind = headers.map Header.kind := by
  induction headers with
  | nil => rfl
  | cons h headers ih =>
    unfold loadFirst
    split
    · rw [List.map_cons, List.map_cons, kind_load]
    · rw [List.map_cons, List.map_cons, ih]

/-- Without a header of its kind a record is not read. -/
theorem loadFirst_of_absent {headers : List Header} (absent : kind ∉ headers.map Header.kind) :
    loadFirst kind input headers = (headers, .ok ()) := by
  induction headers with
  | nil => rfl
  | cons h headers ih =>
    rw [List.map_cons, List.mem_cons, not_or] at absent
    unfold loadFirst
    rw [if_neg (Ne.symm absent.1), ih absent.2]

end Header

namespace GraphFile

/-- A header record: the code of a kind, which may be unknown, and a body that fits into a block. -/
structure Record where
  code : UInt16
  body : Bytes
  /-- The size of the block can be written down. -/
  framed : body.length + 8 < UInt64.size

namespace Record

def bytes (r : Record) : Bytes :=
  wordBytes 2 r.code.toNat ++ Codec.encodeBlock r.body

/-- The kind of a record, if it is known. -/
def kind? (r : Record) : Option HeaderKind :=
  Enumerated.ofCode? r.code.toNat

/-- A record that is neither the properties of the file nor of the kind of a given header. -/
def Unasked (r : Record) (headers : List Header) : Prop :=
  ∀ kind ∈ r.kind?, kind ≠ .properties ∧ kind ∉ headers.map Header.kind

instance (r : Record) (headers : List Header) : Decidable (r.Unasked headers) :=
  inferInstanceAs (Decidable (∀ kind ∈ r.kind?, kind ≠ .properties ∧ kind ∉ headers.map Header.kind))

/-- The bytes of a record restore its code and its body. -/
theorem readRecord_bytes (r : Record) (rest : Bytes) :
    readRecord (r.bytes ++ rest) = .ok ((r.code.toNat, r.body), rest) := by
  have code : r.code.toNat % wordRange 2 = r.code.toNat := Nat.mod_eq_of_lt r.code.toNat_lt
  unfold readRecord bytes
  simp only [List.append_assoc, Reader.bind_apply, Reader.word_wordBytes, code,
    Codec.decodeBlock_append r.body rest r.framed, Reader.pure_apply]

end Record

namespace HeaderScan

/-- Takes a record into account; one of an unknown kind is skipped. -/
def takeRecord (scan : HeaderScan) (r : Record) : HeaderScan × Except Error Unit :=
  match r.kind? with
  | none => (scan, .ok ())
  | some kind => scan.take kind r.body

/-- Takes records into account, up to the first failure. -/
def takeAll (scan : HeaderScan) : List Record → HeaderScan × Except Error Unit
  | [] => (scan, .ok ())
  | r :: records =>
    match scan.takeRecord r with
    | (next, .ok _) => next.takeAll records
    | (next, .error e) => (next, .error e)

/-- Taking a body into account keeps the kinds of the headers. -/
theorem kinds_take (scan : HeaderScan) (kind : HeaderKind) (body : Bytes) :
    (scan.take kind body).1.headers.map Header.kind = scan.headers.map Header.kind := by
  unfold take
  split
  · split
    · rfl
    · exact Header.kinds_loadFirst kind body scan.headers
  · exact Header.kinds_loadFirst kind body scan.headers

/-- Taking a record into account keeps the kinds of the headers. -/
theorem kinds_takeRecord (scan : HeaderScan) (r : Record) :
    (scan.takeRecord r).1.headers.map Header.kind = scan.headers.map Header.kind := by
  unfold takeRecord
  split
  · rfl
  · exact kinds_take scan _ r.body

/-- A record that nobody asks for is skipped. -/
theorem takeRecord_of_unasked {scan : HeaderScan} {r : Record} (unasked : r.Unasked scan.headers) :
    scan.takeRecord r = (scan, .ok ()) := by
  unfold takeRecord
  split
  · rfl
  · next kind known =>
    obtain ⟨other, absent⟩ := unasked kind known
    unfold take
    rw [if_neg other, Header.loadFirst_of_absent absent]

/-- A record that nobody asks for could as well be missing. -/
theorem takeAll_unasked {extra : Record} (before after : List Record) {scan : HeaderScan}
    (unasked : extra.Unasked scan.headers) :
    scan.takeAll (before ++ extra :: after) = scan.takeAll (before ++ after) := by
  induction before generalizing scan with
  | nil => rw [List.nil_append, List.nil_append, takeAll, takeRecord_of_unasked unasked]
  | cons r before ih =>
    have kinds := scan.kinds_takeRecord r
    rw [List.cons_append, List.cons_append, takeAll, takeAll]
    cases taken : scan.takeRecord r with
    | mk next result =>
      rw [taken] at kinds
      cases result with
      | error cause => rfl
      | ok _ =>
        -- the reader still has no header of that kind
        have still : extra.Unasked next.headers := by
          unfold Record.Unasked
          rw [kinds]
          exact unasked
        exact ih still

end HeaderScan

/-! ## Files -/

/-- Reading the bytes of a record takes it into account. -/
theorem loadRecord_bytes (scan : HeaderScan) (r : Record) (rest : Bytes) :
    loadRecord scan (r.bytes ++ rest) =
      ((scan.takeRecord r).1, (scan.takeRecord r).2.map fun _ => rest) := by
  unfold loadRecord HeaderScan.takeRecord Record.kind?
  simp only [r.readRecord_bytes rest]
  cases (Enumerated.ofCode? r.code.toNat : Option HeaderKind) <;> rfl

/-- Reading the bytes of records takes them into account, up to the first failure. -/
theorem loadTimes_records (records : List Record) (scan : HeaderScan) (rest : Bytes) :
    InPlace.loadTimes loadRecord records.length scan (records.flatMap Record.bytes ++ rest) =
      ((scan.takeAll records).1, (scan.takeAll records).2.map fun _ => rest) := by
  induction records generalizing scan with
  | nil => rfl
  | cons r records ih =>
    rw [List.length_cons, List.flatMap_cons, List.append_assoc, InPlace.loadTimes, loadRecord_bytes,
      HeaderScan.takeAll]
    cases taken : scan.takeRecord r with
    | mk next result =>
      cases result with
      | error cause => rfl
      | ok _ => exact ih next

/-- The header records of a file: their number, and then one after the other. -/
def recordBytes (records : List Record) : Bytes :=
  wordBytes 4 records.length ++ records.flatMap Record.bytes

/-- Reading the header records of a file takes them into account one by one, and leaves the rest. -/
theorem loadHeaders_records {records : List Record} (few : records.length < UInt32.size)
    (headers : List Header) (rest : Bytes) :
    loadHeaders headers (recordBytes records ++ rest) =
      ((HeaderScan.takeAll { headers } records).1,
        (HeaderScan.takeAll { headers } records).2.map fun _ => rest) := by
  have count : records.length % wordRange 4 = records.length := Nat.mod_eq_of_lt few
  unfold loadHeaders InPlace.loadCounted recordBytes
  rw [List.append_assoc, Reader.word_wordBytes, count]
  exact loadTimes_records records { headers } rest

/-- Files that are alike to the reader of headers are alike to the reader of graphs. -/
theorem load_congr {headers : List Header} {a b : Bytes}
    (alike : loadHeaders headers a = loadHeaders headers b) (g : Graph) :
    g.load headers (magic ++ a) = g.load headers (magic ++ b) := by
  unfold Graph.load
  rw [Reader.bytes_append, Reader.bytes_append]
  simp only [alike]

/-- Files that are alike to the reader of headers get the same verdict. -/
theorem check_congr {a b : Bytes} (alike : loadHeaders [] a = loadHeaders [] b) :
    check (some (magic ++ a)) = check (some (magic ++ b)) := by
  have same : problems (magic ++ a) = problems (magic ++ b) := by
    unfold problems
    rw [Reader.bytes_append, Reader.bytes_append]
    simp only [bind, Except.bind, alike]
  simp only [check, same]

/-- A record that nobody asks for makes no difference. -/
theorem loadHeaders_unasked {headers : List Header} {extra : Record}
    (unasked : extra.Unasked headers) {before after : List Record}
    (few : before.length + after.length + 1 < UInt32.size) (rest : Bytes) :
    loadHeaders headers (recordBytes (before ++ extra :: after) ++ rest) =
      loadHeaders headers (recordBytes (before ++ after) ++ rest) := by
  have more : (before ++ extra :: after).length < UInt32.size := by
    rw [List.length_append, List.length_cons]
    omega
  have fewer : (before ++ after).length < UInt32.size := by
    rw [List.length_append]
    omega
  rw [loadHeaders_records more, loadHeaders_records fewer,
    HeaderScan.takeAll_unasked before after unasked]

/-- A record of an unknown kind, or of a kind that is not that of properties and for which the reader
has no header, changes nothing in what is loaded and reported, whatever it holds, wherever it stands
among the records, and whatever follows them. -/
theorem unasked_record_ignored (g : Graph) (headers : List Header) (before after : List Record)
    (extra : Record) (rest : Bytes) (unasked : extra.Unasked headers)
    (few : before.length + after.length + 1 < UInt32.size) :
    let longer := magic ++ (recordBytes (before ++ extra :: after) ++ rest)
    let shorter := magic ++ (recordBytes (before ++ after) ++ rest)
    g.load headers longer = g.load headers shorter ∧ check (some longer) = check (some shorter) := by
  have nobody : extra.Unasked [] := fun kind known => ⟨(unasked kind known).1, List.not_mem_nil⟩
  exact ⟨load_congr (loadHeaders_unasked unasked few rest) g,
    check_congr (loadHeaders_unasked nobody few rest)⟩

/-- The properties that a file of a graph has, as a record. -/
def javaRecord : Record :=
  ⟨0, (Properties.empty.describe .java).encode.toOption.getD [], by decide +kernel⟩

/-- A record with overrides that cannot be read. -/
def strayRecord : Record :=
  ⟨5, [0xFF], by decide⟩

/-- A file without nodes is loaded with the stray record as it is without, if the reader has no header
for overrides. -/
theorem unasked_record_ignored_stray :
    let headers := [Header.properties .empty, .unread .origin []]
    let rest := endOfNodes ++ TextTable.empty.save
    let longer := magic ++ (recordBytes [javaRecord, strayRecord] ++ rest)
    let shorter := magic ++ (recordBytes [javaRecord] ++ rest)
    strayRecord.Unasked headers ∧ ¬ strayRecord.Unasked [.overrides .empty] ∧
      ((Graph.new .java).load headers longer).1 = .ok () ∧
      (Graph.new .java).load headers longer = (Graph.new .java).load headers shorter ∧
      check (some longer) = check (some shorter) := by
  intro headers rest longer shorter
  have facts : strayRecord.Unasked headers ∧ ¬ strayRecord.Unasked [.overrides .empty] ∧
      ((Graph.new .java).load headers longer).1 = .ok () := by decide +kernel
  obtain ⟨unasked, asked, loads⟩ := facts
  have ignored := unasked_record_ignored (.new .java) headers [javaRecord] [] strayRecord rest unasked
    (by decide)
  exact ⟨unasked, asked, loads, ignored⟩

end GraphFile

end CodeGraph
