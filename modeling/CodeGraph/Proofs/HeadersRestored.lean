import CodeGraph.Proofs.HeaderRecords
import CodeGraph.Proofs.StoredHeaders
import CodeGraph.Proofs.Truncation

/-!
# Headers travel with the graph

Saving fills in the properties among the headers, or adds some, and writes them before the other
headers, one record for each (`writeHeaders_holding`). Loading reads each record into the header of
its kind, so the order of the headers does not matter on either side. A sink that has failed takes
nothing more, so if the properties cannot be written then the graph is not saved. Main statement:
`Graph.headers_restored_after`.
-/

set_option autoImplicit false

namespace CodeGraph

/-! ## Failed sinks -/

namespace Sink

variable {s : Sink}

/-- A sink that has failed takes no more bytes. -/
theorem put_of_failed (failed : s.isOk = false) (bytes : Bytes) : s.put bytes = s := by
  obtain ⟨reversed, room, fault⟩ := s
  cases fault with
  | none => cases failed
  | some cause => rfl

/-- A sink that has failed takes neither bytes nor another failure. -/
theorem putResult_of_failed (failed : s.isOk = false) (bytes : Except Error Bytes) :
    s.putResult bytes = s := by
  cases bytes with
  | ok bytes => exact put_of_failed failed bytes
  | error cause =>
    obtain ⟨reversed, room, fault⟩ := s
    cases fault with
    | none => cases failed
    | some earlier => rfl

/-- A failure makes a sink fail. -/
theorem isOk_putResult_error (s : Sink) (cause : Error) :
    (s.putResult (.error cause)).isOk = false := by
  obtain ⟨reversed, room, fault⟩ := s
  cases fault <;> rfl

/-- The outcome of a sink that has failed is an error. -/
theorem outcome_of_failed (failed : s.isOk = false) : ∃ cause, s.outcome = .error cause := by
  obtain ⟨reversed, room, fault⟩ := s
  cases fault with
  | none => cases failed
  | some cause => exact ⟨cause, rfl⟩

end Sink

namespace GraphFile

variable {sink : Sink} {language : Language}

/-- No record is written to a sink that has failed. -/
theorem writeRecord_of_failed (failed : sink.isOk = false) (h : Header) :
    writeRecord sink h = sink := by
  unfold writeRecord
  rw [Sink.put_of_failed failed, Sink.putResult_of_failed failed]

/-- No properties are written to a sink that has failed. -/
theorem writeProperties_of_failed (failed : sink.isOk = false) (headers : List Header) :
    (writeProperties language headers sink).2 = sink := by
  induction headers with
  | nil => rfl
  | cons h headers ih =>
    unfold writeProperties
    split
    · simp only [writeRecord_of_failed failed, ih]
    · exact ih

/-- No nodes are written to a sink that has failed. -/
theorem writeNodes_of_failed (failed : sink.isOk = false) (g : Graph) : writeNodes g sink = sink := by
  -- the writer answers the first node with a refusal, and its state never changes
  have agrees : Agrees (fun w v => w = v ∧ w.sink = sink) RecordWriter.visitor.watch
      RecordWriter.visitor.watch := by
    rintro w _ step ⟨rfl, same⟩
    refine ⟨⟨rfl, ?_⟩, rfl⟩
    cases step with
    | enter n =>
      simp only [Visitor.watch, RecordWriter.visitor, RecordWriter.write, same,
        Sink.put_of_failed failed, failed, Bool.false_eq_true, if_false]
    | edge e | endEdge e | leave n => exact same
  have start : RecordWriter.mk sink 0 = RecordWriter.mk sink 0 ∧
      (RecordWriter.mk sink 0).sink = sink := ⟨rfl, rfl⟩
  exact (g.turnFilterOff.walkFrom_alike agrees { safe := true } start none 0).watcher.2

/-- Properties that cannot be written fail any sink, unless it has failed before. -/
theorem isOk_writeProperties {headers : List Header} {h : Header} (mem : h ∈ headers)
    (isProperties : h.isProperties = true) {cause : Error}
    (refused : (h.describe language).encode = .error cause) (sink : Sink) :
    (writeProperties language headers sink).2.isOk = false := by
  induction headers generalizing sink with
  | nil => cases mem
  | cons first headers ih =>
    rcases List.mem_cons.1 mem with rfl | later
    · unfold writeProperties
      rw [if_pos isProperties]
      simp only
      cases ok : sink.isOk with
      | true =>
        have failed : (writeRecord sink (h.describe language)).isOk = false := by
          unfold writeRecord
          rw [refused]
          exact Sink.isOk_putResult_error _ cause
        rw [if_pos rfl, writeProperties_of_failed failed]
        exact failed
      | false =>
        rw [writeRecord_of_failed ok, writeProperties_of_failed ok]
        exact ok
    · unfold writeProperties
      split
      · exact ih later _
      · exact ih later sink

end GraphFile

/-- A graph whose properties cannot be written is not saved. -/
theorem Graph.save_fails {g : Graph} {headers : List Header} {h : Header} (mem : h ∈ headers)
    (isProperties : h.isProperties = true) {cause : Error}
    (refused : (h.describe g.language).encode = .error cause) (sink : Sink) :
    ∃ cause, (g.save headers sink).2.outcome = .error cause := by
  have given : headers.any Header.isProperties = true := List.any_eq_true.2 ⟨h, mem, isProperties⟩
  have failed := GraphFile.isOk_writeProperties mem isProperties refused
    ((sink.put GraphFile.magic).put (wordBytes 4 headers.length))
  apply Sink.outcome_of_failed
  unfold save GraphFile.writeHeaders
  rw [if_pos given]
  simp only
  rw [List.foldl_fixed' (GraphFile.writeRecord_of_failed failed),
    GraphFile.writeNodes_of_failed failed, Sink.put_of_failed failed, Sink.put_of_failed failed]
  exact failed

/-! ## The records of headers -/

/-- A record that holds the bytes of a header under its kind. -/
structure Header.StoredAs (h : Header) (r : GraphFile.Record) : Prop where
  encoded : h.encode = .ok r.body
  code : r.code.toNat = Enumerated.code h.kind

namespace Header

/-- A header whose bytes fit into a block is stored as a record. -/
theorem exists_storedAs {h : Header} {body : Bytes} (encoded : h.encode = .ok body)
    (framed : body.length + 8 < UInt64.size) : ∃ r, h.StoredAs r := by
  have small : ∀ kind : HeaderKind, (UInt16.ofNat (Enumerated.code kind)).toNat =
      Enumerated.code kind := by
    intro kind
    cases kind <;> rfl
  exact ⟨⟨UInt16.ofNat (Enumerated.code h.kind), body, framed⟩, encoded, small h.kind⟩

/-- The record of a header has its kind. -/
theorem StoredAs.kind? {h : Header} {r : GraphFile.Record} (stored : h.StoredAs r) :
    r.kind? = some h.kind := by
  unfold GraphFile.Record.kind?
  rw [stored.code, Enumerated.ofCode?_code]

/-- Only properties are filled in. -/
theorem describe_of_not_isProperties {h : Header} (other : ¬ h.isProperties = true)
    (language : Language) : h.describe language = h := by
  cases h with
  | properties p => exact absurd rfl other
  | overrides o => rfl
  | unread kind content => rfl

/-- The properties that a file starts with: those that are given, or else some of its own. -/
def leading (language : Language) (headers : List Header) : List Header :=
  if headers.any isProperties then
    (headers.filter isProperties).map (·.describe language)
  else
    [.properties (Properties.empty.describe language)]

/-- The headers that follow the properties. -/
def following (headers : List Header) : List Header :=
  headers.filter fun h => !h.isProperties

end Header

namespace GraphFile

variable {language : Language}

/-- Writing a header writes the bytes of its record. -/
theorem writeRecord_holding {h : Header} {r : Record} (stored : h.StoredAs r) (before : Bytes) :
    writeRecord (.holding before) h = .holding (before ++ r.bytes) := by
  unfold writeRecord Record.bytes
  rw [stored.encoded, stored.code, Sink.put_holding]
  exact (Sink.put_holding _ _).trans (by rw [List.append_assoc])

/-- Writing headers writes the bytes of their records, one after another. -/
theorem foldl_writeRecord_holding {headers : List Header} {records : List Record}
    (stored : List.Forall₂ Header.StoredAs headers records) (before : Bytes) :
    headers.foldl writeRecord (.holding before) =
      .holding (before ++ records.flatMap Record.bytes) := by
  induction stored generalizing before with
  | nil => rw [List.foldl_nil, List.flatMap_nil, List.append_nil]
  | cons here _ ih =>
    rw [List.foldl_cons, writeRecord_holding here, ih, List.flatMap_cons, List.append_assoc]

/-- Writing the properties fills them in and writes the bytes of their records. -/
theorem writeProperties_holding {headers : List Header} {records : List Record}
    (stored : List.Forall₂ Header.StoredAs
      ((headers.filter Header.isProperties).map (·.describe language)) records) (before : Bytes) :
    writeProperties language headers (.holding before) =
      (headers.map (·.describe language), .holding (before ++ records.flatMap Record.bytes)) := by
  induction headers generalizing records before with
  | nil =>
    cases stored
    rw [List.flatMap_nil, List.append_nil]
    rfl
  | cons h headers ih =>
    by_cases isProperties : h.isProperties = true
    · rw [List.filter_cons_of_pos isProperties, List.map_cons] at stored
      obtain _ | ⟨here, others⟩ := stored
      have ok : (Sink.holding before).isOk = true := rfl
      rw [writeProperties, if_pos isProperties]
      simp only [ok, if_true, writeRecord_holding here, ih others, List.map_cons, List.flatMap_cons,
        List.append_assoc]
    · rw [List.filter_cons_of_neg isProperties] at stored
      rw [writeProperties, if_neg isProperties, ih stored, List.map_cons,
        Header.describe_of_not_isProperties isProperties]

/-- If all headers of a file can be written, then their records are, the properties first, and what is
filled in is given back. -/
theorem writeHeaders_holding {headers : List Header} {first others : List Record}
    (leads : List.Forall₂ Header.StoredAs (Header.leading language headers) first)
    (follow : List.Forall₂ Header.StoredAs (Header.following headers) others) (before : Bytes) :
    writeHeaders language headers (.holding before) =
      (headers.map (·.describe language), .holding (before ++ recordBytes (first ++ others))) := by
  have leading := leads.length_eq
  have following := follow.length_eq
  unfold Header.leading at leads leading
  unfold Header.following at follow following
  unfold writeHeaders recordBytes
  rw [List.length_append, List.flatMap_append, ← leading, ← following]
  by_cases given : headers.any Header.isProperties = true
  · have total := List.length_eq_length_filter_add (l := headers) Header.isProperties
    rw [if_pos given] at leads leading ⊢
    rw [if_pos given, List.length_map, ← total, Sink.put_holding]
    simp only [writeProperties_holding leads, foldl_writeRecord_holding follow, List.append_assoc]
  · have none : ∀ h ∈ headers, ¬ h.isProperties = true := by simpa using given
    have all : headers.filter (fun h => !h.isProperties) = headers :=
      List.filter_eq_self.2 fun h mem => by simpa using none h mem
    have same : headers.map (·.describe language) = headers :=
      (List.map_congr_left fun h mem =>
        Header.describe_of_not_isProperties (none h mem) language).trans (List.map_id headers)
    rw [if_neg given] at leads leading ⊢
    rw [all] at follow ⊢
    obtain _ | ⟨own, ⟨⟩⟩ := leads
    simp only [if_neg given, same, Sink.put_holding, writeRecord_holding own,
      foldl_writeRecord_holding follow, List.length_singleton, List.flatMap_singleton,
      List.append_assoc, Nat.add_comm]

end GraphFile

/-! ## Reading them back -/

namespace Header

/-- A header with given content in the place of its own. -/
def filledWith (p : Properties) (o : Overrides) : Header → Header
  | .properties _ => .properties p
  | .overrides _ => .overrides o
  | .unread kind content => .unread kind content

/-- Other content keeps the kind of a header. -/
theorem kind_filledWith (p : Properties) (o : Overrides) (h : Header) :
    (filledWith p o h).kind = h.kind := by
  cases h <;> rfl

/-- A header without content that can be understood. -/
def IsFresh (h : Header) : Prop :=
  h = .properties .empty ∨ h = .overrides .empty

/-- Fresh headers that differ are of different kinds. -/
theorem nodup_kinds {headers : List Header} (fresh : ∀ h ∈ headers, h.IsFresh)
    (once : headers.Nodup) : (headers.map Header.kind).Nodup := by
  refine once.map_on fun h mem other mem' same => ?_
  rcases fresh h mem with rfl | rfl <;> rcases fresh other mem' with rfl | rfl
  · rfl
  · cases same
  · cases same
  · rfl

/-- If all headers are of different kinds, a record is read into the one of its kind. -/
theorem loadFirst_of_nodup {kind : HeaderKind} {input : Bytes} {fill : Header → Header}
    {headers : List Header} (distinct : (headers.map Header.kind).Nodup)
    (reads : ∀ h ∈ headers, h.kind = kind → ∃ rest, h.load input = (fill h, .ok rest))
    (keeps : ∀ h ∈ headers, h.kind ≠ kind → fill h = h) :
    loadFirst kind input headers = (headers.map fill, .ok ()) := by
  induction headers with
  | nil => rfl
  | cons h headers ih =>
    obtain ⟨alone, distinct⟩ := List.nodup_cons.1 distinct
    obtain ⟨readsHere, reads⟩ := List.forall_mem_cons.1 reads
    obtain ⟨keepsHere, keeps⟩ := List.forall_mem_cons.1 keeps
    rw [loadFirst, List.map_cons]
    by_cases asked : h.kind = kind
    · obtain ⟨rest, read⟩ := readsHere asked
      have others : headers.map fill = headers := by
        refine (List.map_congr_left fun other mem => keeps other mem fun same => ?_).trans
          (List.map_id headers)
        exact alone (asked.trans same.symm ▸ List.mem_map_of_mem mem)
      rw [if_pos asked, read, others]
      rfl
    · rw [if_neg asked, ih distinct reads keeps, keepsHere asked]

end Header

namespace GraphFile

variable {headers : List Header} {r : Record}

/-- The properties of a file are read into a fresh header, and known to the reader. -/
theorem takeRecord_properties {p : Properties} (stored : (Header.properties p).StoredAs r)
    (few : p.size < 2 ^ 32) (sorted : p.values.Sorted) (fresh : ∀ h ∈ headers, h.IsFresh)
    (distinct : (headers.map Header.kind).Nodup) :
    HeaderScan.takeRecord { headers } r =
      (⟨headers.map (Header.filledWith p .empty), some p⟩, .ok ()) := by
  have restored : Properties.empty.load r.body = (p, .ok []) :=
    Properties.load_encode stored.encoded few sorted
  have read : Header.loadFirst .properties r.body headers =
      (headers.map (Header.filledWith p .empty), .ok ()) := by
    refine Header.loadFirst_of_nodup distinct (fun h mem asked => ⟨[], ?_⟩) fun h mem other => ?_
    · rcases fresh h mem with rfl | rfl
      · simp only [Header.load, restored, Header.filledWith]
      · cases asked
    · rcases fresh h mem with rfl | rfl
      · exact absurd rfl other
      · rfl
  unfold HeaderScan.takeRecord
  simp only [stored.kind?, Header.kind, HeaderScan.take, if_true, restored, read]

/-- Overrides are read into the header for them. -/
theorem takeRecord_overrides {o : Overrides} (stored : (Header.overrides o).StoredAs r)
    (wf : o.WellFormed) (fits : o.Fits) (fresh : ∀ h ∈ headers, h.IsFresh)
    (distinct : (headers.map Header.kind).Nodup) (p : Properties) :
    HeaderScan.takeRecord ⟨headers.map (Header.filledWith p .empty), some p⟩ r =
      (⟨headers.map (Header.filledWith p o), some p⟩, .ok ()) := by
  have body : r.body = o.encode := (Except.ok.inj stored.encoded).symm
  have kinds : (headers.map (Header.filledWith p .empty)).map Header.kind =
      headers.map Header.kind := by
    rw [List.map_map]
    exact List.map_congr_left fun h _ => Header.kind_filledWith p .empty h
  have twice : (headers.map (Header.filledWith p .empty)).map (Header.filledWith p o) =
      headers.map (Header.filledWith p o) := by
    rw [List.map_map]
    exact List.map_congr_left fun h _ => by cases h <;> rfl
  have content : ∀ h ∈ headers.map (Header.filledWith p .empty),
      h = .properties p ∨ h = .overrides .empty := by
    intro h mem
    obtain ⟨start, given, rfl⟩ := List.mem_map.1 mem
    rcases fresh start given with rfl | rfl
    · exact Or.inl rfl
    · exact Or.inr rfl
  have restored := Overrides.load_encode wf fits.few fits.short .empty []
  rw [List.append_nil, ← body] at restored
  have read : Header.loadFirst .overrides r.body (headers.map (Header.filledWith p .empty)) =
      (headers.map (Header.filledWith p o), .ok ()) := by
    rw [← twice]
    refine Header.loadFirst_of_nodup (kinds ▸ distinct) (fun h mem asked => ⟨[], ?_⟩)
      fun h mem other => ?_
    · rcases content h mem with rfl | rfl
      · cases asked
      · simp only [Header.load, restored, Header.filledWith]
    · rcases content h mem with rfl | rfl
      · rfl
      · exact absurd rfl other
  unfold HeaderScan.takeRecord
  simp only [stored.kind?, Header.kind, HeaderScan.take, reduceCtorEq, if_false, read]

/-- The records of properties and overrides are read into fresh headers, in whatever order these
stand. -/
theorem loadHeaders_stored {p : Properties} {o? : Option Overrides} {first others : List Record}
    (leads : List.Forall₂ Header.StoredAs [.properties p] first)
    (follow : List.Forall₂ Header.StoredAs (o?.toList.map .overrides) others)
    (few : p.size < 2 ^ 32) (sorted : p.values.Sorted) (wf : ∀ o ∈ o?, o.WellFormed)
    (fits : ∀ o ∈ o?, o.Fits) (fresh : ∀ h ∈ headers, h.IsFresh) (once : headers.Nodup)
    (rest : Bytes) :
    loadHeaders headers (recordBytes (first ++ others) ++ rest) =
      (⟨headers.map (Header.filledWith p (o?.getD .empty)), some p⟩, .ok rest) := by
  have distinct := Header.nodup_kinds fresh once
  have atMostTwo : (first ++ others).length < UInt32.size := by
    have one : o?.toList.length ≤ 1 := by cases o? <;> simp
    rw [List.length_append, ← leads.length_eq, ← follow.length_eq, List.length_map,
      List.length_singleton]
    unfold UInt32.size
    omega
  rw [loadHeaders_records atMostTwo]
  obtain _ | ⟨told, ⟨⟩⟩ := leads
  have start := takeRecord_properties told few sorted fresh distinct
  cases o? with
  | none =>
    obtain ⟨⟩ := follow
    simp only [List.append_nil, HeaderScan.takeAll, start]
    rfl
  | some o =>
    obtain _ | ⟨listed, ⟨⟩⟩ := follow
    have next := takeRecord_overrides listed (wf o rfl) (fits o rfl) fresh distinct p
    simp only [List.singleton_append, HeaderScan.takeAll, start, next]
    rfl

/-- The headers that loading gives back are those that the header records were read into. -/
theorem headers_load {scan : HeaderScan} {result : Except Error Bytes} {input : Bytes}
    (read : loadHeaders headers input = (scan, result)) (g : Graph) :
    (g.load headers (magic ++ input)).2.1 = scan.headers := by
  unfold Graph.load
  rw [Reader.bytes_append]
  simp only [if_true, read]
  cases result with
  | error cause => rfl
  | ok rest =>
    simp only
    split <;> rfl

end GraphFile

/-! ## Headers in any order -/

namespace Header

variable {p? : Option Properties} {o? : Option Overrides} {headers : List Header}

/-- A file starts with the given properties filled in, or else with properties of its own. -/
theorem leading_of_perm (given : headers.Perm (p?.toList.map .properties ++ o?.toList.map .overrides))
    (language : Language) :
    leading language headers = [.properties ((p?.getD .empty).describe language)] := by
  have parts := given.filter isProperties
  unfold leading
  cases p? with
  | none =>
    have nothing : headers.filter isProperties = [] := by
      refine List.perm_nil.1 (parts.trans (List.Perm.of_eq ?_))
      cases o? <;> rfl
    have absent : ¬ headers.any isProperties = true := by
      simpa [List.filter_eq_nil_iff] using nothing
    rw [if_neg absent]
    rfl
  | some p =>
    have only : headers.filter isProperties = [.properties p] := by
      refine List.perm_singleton.1 (parts.trans (List.Perm.of_eq ?_))
      cases o? <;> rfl
    have present : headers.any isProperties = true := by
      have mem : Header.properties p ∈ headers.filter isProperties := only ▸ List.mem_singleton_self _
      exact List.any_eq_true.2 ⟨_, List.mem_filter.1 mem⟩
    rw [if_pos present, only]
    rfl

/-- After the properties come the given overrides, if any. -/
theorem following_of_perm
    (given : headers.Perm (p?.toList.map .properties ++ o?.toList.map .overrides)) :
    following headers = o?.toList.map .overrides := by
  have parts := given.filter fun h => !h.isProperties
  unfold following
  cases o? with
  | none =>
    refine List.perm_nil.1 (parts.trans (List.Perm.of_eq ?_))
    cases p? <;> rfl
  | some o =>
    refine List.perm_singleton.1 (parts.trans (List.Perm.of_eq ?_))
    cases p? <;> rfl

end Header

namespace GraphFile

variable {language : Language} {p? : Option Properties} {o? : Option Overrides}

/-- Properties and overrides that can be written have header records, from which fresh headers are
filled, whatever the order on either side. -/
theorem exists_header (setUp : ∀ p ∈ p?, p.Reachable) (told : ∀ o ∈ o?, o.Reachable)
    (few : ((p?.getD .empty).describe language).size < 2 ^ 32) (fits : ∀ o ∈ o?, o.Fits)
    {saved fresh : List Header}
    (given : saved.Perm (p?.toList.map .properties ++ o?.toList.map .overrides))
    (empty : ∀ h ∈ fresh, h.IsFresh) (once : fresh.Nodup)
    (short : ((p?.getD .empty).describe language).Short) :
    ∃ header : Bytes,
      (∀ before, writeHeaders language saved (.holding before) =
        (saved.map (·.describe language), .holding (before ++ header))) ∧
      ∀ rest, loadHeaders fresh (header ++ rest) =
        (⟨fresh.map (Header.filledWith ((p?.getD .empty).describe language) (o?.getD .empty)),
          some ((p?.getD .empty).describe language)⟩, .ok rest) := by
  have reachable : (p?.getD .empty).Reachable := by
    cases p? with
    | none => exact .empty
    | some p => exact setUp p rfl
  have sorted : ((p?.getD .empty).describe language).values.Sorted :=
    Properties.Reachable.sorted ((((reachable.set _ _).set _ _).set _ _).set _ _)
  obtain ⟨bytes, written, length⟩ := Properties.exists_encode short
  have framed : bytes.length + 8 < UInt64.size := by
    unfold UInt64.size
    omega
  have leads : ∃ first, List.Forall₂ Header.StoredAs
      [.properties ((p?.getD .empty).describe language)] first := by
    obtain ⟨r, stored⟩ := Header.exists_storedAs (h := .properties _) written framed
    exact ⟨[r], .cons stored .nil⟩
  have follow : ∃ others, List.Forall₂ Header.StoredAs (o?.toList.map .overrides) others := by
    cases o? with
    | none => exact ⟨[], .nil⟩
    | some o =>
      obtain ⟨r, stored⟩ := Header.exists_storedAs (h := .overrides o) rfl (fits o rfl).framed
      exact ⟨[r], .cons stored .nil⟩
  obtain ⟨first, leads⟩ := leads
  obtain ⟨others, follow⟩ := follow
  refine ⟨recordBytes (first ++ others), writeHeaders_holding ?_ ?_,
    loadHeaders_stored leads follow few sorted (fun o mem => (told o mem).wellFormed) fits empty once⟩
  · rw [Header.leading_of_perm given]
    exact leads
  · rw [Header.following_of_perm given]
    exact follow

end GraphFile

namespace Graph

/-- Properties that are too long to be written, with what is filled in, make saving fail. -/
theorem save_fails_of_long {g : Graph} {p? : Option Properties} {o? : Option Overrides}
    {headers : List Header}
    (given : headers.Perm (p?.toList.map .properties ++ o?.toList.map .overrides))
    (long : ¬ ((p?.getD .empty).describe g.language).Short) (sink : Sink) :
    ∃ cause, (g.save headers sink).2.outcome = .error cause := by
  cases p? with
  | none =>
    have nothing : Properties.empty.Short := fun entry mem => absurd mem List.not_mem_nil
    exact absurd (nothing.describe g.language) long
  | some p =>
    have mem : Header.properties p ∈ headers := given.mem_iff.2 List.mem_cons_self
    cases written : (p.describe g.language).encode with
    | ok bytes => exact absurd (Properties.short_of_encode written) long
    | error cause => exact save_fails mem rfl written sink

/-- Whatever is done to a new graph, if its texts are short enough, properties and overrides can be
saved with it, one of them or both or none, in any order. The properties come back with the four values
that are filled in and else unchanged, and the overrides as they were. Fresh headers are filled in any
order, and the graph loads if its nodes have attributes of their kind. Properties that are too long,
with what is filled in, make saving fail whatever it writes to. -/
theorem headers_restored_after (language : Language) (history : List Operation)
    (short : ∀ entry ∈ ((new language).after history).texts.toList,
      (Utf8.encode entry.2).length < 2 ^ 32)
    (p? : Option Properties) (o? : Option Overrides) (setUp : ∀ p ∈ p?, p.Reachable)
    (told : ∀ o ∈ o?, o.Reachable)
    (few : ((p?.getD .empty).describe ((new language).after history).language).size < 2 ^ 32)
    (fits : ∀ o ∈ o?, o.Fits) (saved fresh : List Header)
    (given : saved.Perm (p?.toList.map .properties ++ o?.toList.map .overrides))
    (empty : ∀ h ∈ fresh, h.IsFresh) (once : fresh.Nodup) :
    let f := (new language).after history
    let filled := (p?.getD .empty).describe f.language
    (∀ key, filled.get? key =
        (Properties.filledIn? f.language key).or ((p?.getD .empty).get? key)) ∧
      ((p?.getD .empty).Short → filled.Short) ∧
      (filled.Short →
        (f.save saved .unlimited).2.outcome = .ok () ∧
          (f.save saved .unlimited).1 = saved.map (·.describe f.language) ∧
          ∀ g : Graph,
            let loaded := g.load fresh (f.save saved .unlimited).2.written
            (f.nodes.Suited → loaded.1 = .ok ()) ∧
              loaded.2.1 = fresh.map (Header.filledWith filled (o?.getD .empty))) ∧
      (¬ filled.Short → ∀ sink, ∃ cause, (f.save saved sink).2.outcome = .error cause) := by
  intro f filled
  refine ⟨Properties.get?_describe _ f.language, fun shortGiven => shortGiven.describe f.language,
    fun shortFilled => ?_, fun long sink => save_fails_of_long given long sink⟩
  obtain ⟨header, written, read⟩ :=
    GraphFile.exists_header setUp told few fits given empty once shortFilled
  obtain ⟨texts, left, texted⟩ := TextTable.exists_load_save
    (numbered_after language history).sorted short
  rw [save_of_writeHeaders written, Sink.written_holding]
  refine ⟨rfl, rfl, fun g => ⟨fun suited => ?_, GraphFile.headers_load (read _) g⟩⟩
  exact (GraphFile.reads_content (indexed_after language history)
    (wellFormed_nodes_after language history) suited (read _)
    (GraphFile.acceptedLanguage_describe _ f.language) texted g).load_eq_ok

/-- Two methods, of which one has a name. -/
def methodHistory : List Operation :=
  [.createNode .method, .createNode .method, .setName (madeId 0) "run"]

/-- Properties that already tell a language, though not a valid one. -/
def projectProperties : Properties :=
  (Properties.empty.set "Project" "Größe").set Properties.languageKey "unknown"

/-- The second method is told twice to override the first; a missing node overrides nothing. -/
def methodOverrides : Overrides :=
  let f := (new .java).after methodHistory
  (((Overrides.empty.tryAdd f (madeId 1) (madeId 0)).2.tryAdd f (madeId 2) (madeId 0)).2.tryAdd f
    (madeId 1) (madeId 0)).2

/-- Overrides saved before properties come back, and the properties with what is filled in, into fresh
headers in the other order. -/
theorem headers_restored_after_methods :
    let f := (new .java).after methodHistory
    let saved := f.save [.overrides methodOverrides, .properties projectProperties] .unlimited
    let filled := projectProperties.describe f.language
    methodOverrides.get (madeId 1) = [madeId 0, madeId 0] ∧ filled.language? = some .java ∧
      saved.2.outcome = .ok () ∧ saved.1 = [.overrides methodOverrides, .properties filled] ∧
      ∀ g : Graph,
        let loaded := g.load [.properties .empty, .overrides .empty] saved.2.written
        loaded.1 = .ok () ∧ loaded.2.1 = [.properties filled, .overrides methodOverrides] := by
  dsimp only
  have facts : methodOverrides.get (madeId 1) = [madeId 0, madeId 0] ∧
      (projectProperties.describe ((new .java).after methodHistory).language).language? = some .java ∧
      (projectProperties.describe ((new .java).after methodHistory).language).size < 2 ^ 32 ∧
      projectProperties.Short ∧
      (∀ entry ∈ ((new .java).after methodHistory).texts.toList,
        (Utf8.encode entry.2).length < 2 ^ 32) ∧
      methodOverrides.size < 2 ^ 32 ∧
      (∀ entry ∈ methodOverrides.methods.entries, methodOverrides.count entry.1 < 2 ^ 32) ∧
      methodOverrides.encode.length + 8 < UInt64.size := by
    decide +kernel
  obtain ⟨listed, java, few, shortGiven, short, fits⟩ := facts
  have setUp : projectProperties.Reachable := (Properties.Reachable.empty.set _ _).set _ _
  have told : methodOverrides.Reachable :=
    ((Overrides.Reachable.empty.tryAdd _ _ _).tryAdd _ _ _).tryAdd _ _ _
  have fresh : ∀ h ∈ [Header.properties .empty, .overrides .empty], h.IsFresh :=
    List.forall_mem_cons.2 ⟨Or.inl rfl, List.forall_mem_singleton.2 (Or.inr rfl)⟩
  have suited : ((new .java).after methodHistory).nodes.Suited :=
    suited_nodes_after .java methodHistory ⟨trivial, trivial, trivial, trivial⟩
  obtain ⟨-, stillShort, saves, -⟩ := headers_restored_after .java methodHistory short
    (some projectProperties) (some methodOverrides) (fun p mem => Option.some.inj mem ▸ setUp)
    (fun o mem => Option.some.inj mem ▸ told) few
    (fun o mem => Option.some.inj mem ▸ ⟨fits.1, fits.2.1, fits.2.2⟩)
    [.overrides methodOverrides, .properties projectProperties] _ (List.Perm.swap _ _ []) fresh
    (by decide)
  obtain ⟨outcome, given, loads⟩ := saves (stillShort shortGiven)
  exact ⟨listed, java, outcome, given, fun g => ⟨(loads g).1 suited, (loads g).2⟩⟩

end Graph

end CodeGraph
