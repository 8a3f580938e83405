import CodeGraph.Proofs.HeadersRestored
import CodeGraph.Proofs.WalkSteps

/-!
# Saving to sinks that fail

What is written to a sink does not depend on the sink: every part of a save writes bytes that it
would write to any other sink, and perhaps gives up behind them (`Sink.Streams`). So a save that
succeeds on a sink without a limit comes down to putting one list of bytes (`Graph.save_eq_put`), and
a sink with a limit takes the first of them. The graph that is left is the one that was saved, its
filter included, wherever the sink fails (`Graph.saveInPlace_eq`). Main statement:
`Graph.save_limited`.
-/

set_option autoImplicit false

namespace CodeGraph

/-! ## Streams -/

namespace Sink

variable {s : Sink}

/-- A sink that has failed keeps its first failure. -/
theorem refuse_of_failed (failed : s.isOk = false) (cause : Error) : s.refuse cause = s :=
  putResult_of_failed failed (.error cause)

/-- A sink that was refused has failed. -/
theorem isOk_refuse (s : Sink) (cause : Error) : (s.refuse cause).isOk = false :=
  isOk_putResult_error s cause

/-- Putting no bytes does nothing. -/
theorem put_nil (s : Sink) : s.put [] = s := by
  obtain ⟨reversed, room, fault⟩ := s
  rcases fault with _ | cause <;> rcases room with _ | n <;> simp [put]

/-- The outcome of a sink is good just if it has not failed. -/
theorem outcome_eq_ok_iff : s.outcome = .ok () ↔ s.isOk = true := by
  obtain ⟨reversed, room, fault⟩ := s
  cases fault <;> simp [outcome, isOk]

/-- The bytes that a sink with a limit takes, and whether these are all. -/
theorem put_limited (limit : Nat) (bytes : Bytes) :
    ((limited limit).put bytes).written = bytes.take limit ∧
      ((limited limit).put bytes).outcome =
        if bytes.length ≤ limit then .ok () else .error (.transfer .sinkFull) := by
  by_cases fits : bytes.length ≤ limit
  · simp [limited, put, written, outcome, fits, List.take_of_length_le fits]
  · simp [limited, put, written, outcome, fits]

/-- Something that is written piece by piece, whatever the sink makes of it: some bytes, and then
perhaps a reason to give up. -/
inductive Streams (write : Sink → Sink) : Prop
  | all (bytes : Bytes) (puts : ∀ s, write s = s.put bytes)
  | broken (bytes : Bytes) (cause : Error) (puts : ∀ s, write s = (s.put bytes).refuse cause)

namespace Streams

variable {write next : Sink → Sink}

/-- Nothing is written to a sink that has failed. -/
theorem of_failed (streams : Streams write) (failed : s.isOk = false) : write s = s := by
  cases streams with
  | all bytes puts => rw [puts, put_of_failed failed]
  | broken bytes cause puts => rw [puts, put_of_failed failed, refuse_of_failed failed]

/-- One thing is written after the other; nothing comes behind a reason to give up. -/
theorem comp (streams : Streams write) (after : Streams next) : Streams fun s => next (write s) := by
  cases streams with
  | broken bytes cause puts =>
    refine .broken bytes cause fun s => ?_
    rw [puts, after.of_failed (isOk_refuse _ cause)]
  | all bytes puts =>
    cases after with
    | all more puts' => exact .all (bytes ++ more) fun s => by rw [puts, puts', put_append]
    | broken more cause puts' =>
      exact .broken (bytes ++ more) cause fun s => by rw [puts, puts', put_append]

/-- Things written piece by piece, one after another, are written piece by piece together. -/
theorem foldl {α : Type} {write : Sink → α → Sink} (each : ∀ x, Streams fun s => write s x)
    (xs : List α) : Streams fun s => xs.foldl write s := by
  induction xs with
  | nil => exact .all [] fun s => (put_nil s).symm
  | cons x xs ih => exact (each x).comp ih

/-- Putting bytes is writing piece by piece. -/
theorem put (bytes : Bytes) : Streams fun s => s.put bytes :=
  .all bytes fun _ => rfl

/-- Putting bytes or a failure is writing piece by piece. -/
theorem putResult (bytes : Except Error Bytes) : Streams fun s => s.putResult bytes := by
  cases bytes with
  | ok bytes => exact put bytes
  | error cause => exact .broken [] cause fun s => by rw [put_nil]; rfl

/-- What can be written without a limit is written to any sink, byte by byte. -/
theorem eq_put (streams : Streams write) (ok : (write unlimited).isOk = true) (s : Sink) :
    write s = s.put (write unlimited).written := by
  cases streams with
  | all bytes puts => rw [puts, puts, written_put_unlimited]
  | broken bytes cause puts =>
    rw [puts, isOk_refuse] at ok
    cases ok

end Streams

end Sink

/-! ## The parts of a file -/

namespace GraphFile

variable (language : Language)

/-- A header record is written piece by piece. -/
theorem streams_writeRecord (h : Header) : Sink.Streams fun s => writeRecord s h :=
  (Sink.Streams.put _).comp (Sink.Streams.putResult _)

/-- Whether properties are filled in hangs on the sink, but a sink that keeps them from being filled in
takes none of them either. -/
theorem writeProperties_sink (headers : List Header) (s : Sink) :
    (writeProperties language headers s).2 =
      ((headers.filter Header.isProperties).map (·.describe language)).foldl writeRecord s := by
  induction headers generalizing s with
  | nil => rfl
  | cons h headers ih =>
    rw [writeProperties]
    by_cases isProperties : h.isProperties = true
    · have record : writeRecord s (if s.isOk then h.describe language else h) =
          writeRecord s (h.describe language) := by
        cases ok : s.isOk with
        | true => rw [if_pos rfl]
        | false => rw [writeRecord_of_failed ok, writeRecord_of_failed ok]
      rw [if_pos isProperties, List.filter_cons_of_pos isProperties, List.map_cons,
        List.foldl_cons]
      dsimp only
      rw [record, ih]
    · rw [if_neg isProperties, List.filter_cons_of_neg isProperties]
      exact ih s

/-- The header records are written piece by piece. -/
theorem streams_writeHeaders (headers : List Header) :
    Sink.Streams fun s => (writeHeaders language headers s).2 := by
  have others := Sink.Streams.foldl streams_writeRecord (headers.filter fun h => !h.isProperties)
  unfold writeHeaders
  by_cases given : headers.any Header.isProperties = true
  · simp only [if_pos given, writeProperties_sink]
    exact ((Sink.Streams.put _).comp (Sink.Streams.foldl streams_writeRecord _)).comp others
  · simp only [if_neg given]
    exact ((Sink.Streams.put _).comp (streams_writeRecord _)).comp others

/-- The nodes that are entered in the steps of a walk. -/
def enteredNodes (steps : List Step) : List Node :=
  steps.filterMap fun
    | .enter n => some n
    | _ => none

/-- The listing watcher lists the nodes that are entered. -/
theorem feed_lister (steps : List Step) (nodes : List Node) :
    feed Watcher.lister nodes steps = (nodes ++ enteredNodes steps, true) := by
  induction steps generalizing nodes with
  | nil => simp [feed, enteredNodes]
  | cons step steps ih =>
    cases step with
    | enter n =>
      rw [feed_cons_of_taken Watcher.lister (t := nodes ++ [n]) rfl, ih, List.append_assoc]
      rfl
    | edge e | endEdge e | leave n => exact (feed_cons_of_taken Watcher.lister rfl steps).trans (ih _)

/-- A writer of records puts the records of the nodes that are entered. After the first one that does
not fit it is told no more, but the sink would not take more either. -/
theorem feed_writer (steps : List Step) (w : RecordWriter) :
    (feed RecordWriter.visitor.watch w steps).1.sink =
      w.sink.put ((enteredNodes steps).flatMap Node.record) := by
  induction steps generalizing w with
  | nil => exact (Sink.put_nil _).symm
  | cons step steps ih =>
    cases step with
    | enter n =>
      have records : (enteredNodes (.enter n :: steps)).flatMap Node.record =
          n.record ++ (enteredNodes steps).flatMap Node.record := rfl
      rw [records, Sink.put_append]
      cases ok : (w.sink.put n.record).isOk with
      | true =>
        have taken : RecordWriter.visitor.watch w (.enter n) =
            (⟨w.sink.put n.record, w.count + 1⟩, true) := by
          simp only [Visitor.watch, RecordWriter.visitor, RecordWriter.write, ok, if_true]
        rw [feed_cons_of_taken _ taken, ih]
      | false =>
        have refused : RecordWriter.visitor.watch w (.enter n) =
            (⟨w.sink.put n.record, w.count⟩, false) := by
          simp only [Visitor.watch, RecordWriter.visitor, RecordWriter.write, ok,
            Bool.false_eq_true, if_false]
        rw [feed_cons_of_refused _ refused, Sink.put_of_failed ok]
    | edge e | endEdge e | leave n =>
      rw [feed_cons_of_taken RecordWriter.visitor.watch (t := w) rfl]
      exact ih w

/-- The records of the saved nodes are put into any sink. -/
theorem writeNodes_eq_put (g : Graph) (s : Sink) :
    writeNodes g s = s.put ((savedNodes g).flatMap Node.record) := by
  have walk := g.turnFilterOff.walkFrom_behind { safe := true } RecordWriter.visitor.watch
    ⟨s, 0⟩ none 0
  have list := g.turnFilterOff.walkFrom_behind { safe := true } Watcher.lister [] none 0
  generalize g.turnFilterOff.steps { safe := true } none 0 = steps at walk list
  have saved : savedNodes g = enteredNodes steps.watcher := by
    have fed := feed_lister steps.watcher []
    cases list with
    | together alike => exact (Prod.mk.inj (alike.watcher.symm.trans fed)).1
    | stopped refused _ => exact absurd (Prod.mk.inj (refused.symm.trans fed)).2 (by decide)
  have fed := feed_writer steps.watcher ⟨s, 0⟩
  rw [saved, ← fed]
  cases walk with
  | together alike => exact congrArg (·.1.sink) alike.watcher.symm
  | stopped refused _ => exact congrArg (·.1.sink) refused.symm

end GraphFile

/-! ## Whole files -/

namespace Graph

variable (g : Graph) (headers : List Header)

/-- A graph is saved piece by piece. -/
theorem streams_save : Sink.Streams fun s => (g.save headers s).2 := by
  have nodes : Sink.Streams (GraphFile.writeNodes g) := .all _ (GraphFile.writeNodes_eq_put g)
  exact ((((Sink.Streams.put _).comp (GraphFile.streams_writeHeaders g.language headers)).comp
    nodes).comp (Sink.Streams.put _)).comp (Sink.Streams.put _)

/-- What is saved on a sink without a limit is put into any sink. -/
theorem save_eq_put (ok : (g.save headers .unlimited).2.outcome = .ok ()) (s : Sink) :
    (g.save headers s).2 = s.put (g.save headers .unlimited).2.written :=
  (g.streams_save headers).eq_put (Sink.outcome_eq_ok_iff.1 ok) s

/-- Turning the filter off and restoring it leaves a graph as it was. -/
theorem restoreFilter_turnFilterOff : g.turnFilterOff.restoreFilter g.filterOn = g := by
  rcases g with ⟨nodes, texts, filter, _ | _⟩ <;> rfl

/-- Saving in place leaves the graph as it was. A sink that fails on the headers takes nothing of
what would follow. -/
theorem saveInPlace_eq (s : Sink) :
    g.saveInPlace headers s = ((g.save headers s).1, (g.save headers s).2, g) := by
  unfold saveInPlace save
  cases ok : (GraphFile.writeHeaders g.language headers (s.put GraphFile.magic)).2.isOk with
  | true =>
    simp only [ok, if_true, restoreFilter_turnFilterOff]
    rfl
  | false =>
    simp only [ok, Bool.false_eq_true, if_false, GraphFile.writeNodes_of_failed ok,
      Sink.put_of_failed ok]

/-- A save that succeeds with some bytes on a sink without a limit puts the first of them into a sink
with a limit. It succeeds if these are all and fails with the failure of the sink otherwise. Either way
the graph that is left is the graph that was saved. -/
theorem save_limited (limit : Nat)
    (ok : (g.saveInPlace headers .unlimited).2.1.outcome = .ok ()) :
    let full := g.saveInPlace headers .unlimited
    let saved := g.saveInPlace headers (.limited limit)
    let bytes := full.2.1.written
    saved.2.1.outcome = (if bytes.length ≤ limit then .ok () else .error (.transfer .sinkFull)) ∧
      saved.2.1.written = bytes.take (min limit bytes.length) ∧
      saved.2.2 = g ∧
      full.2.2 = g := by
  simp only [saveInPlace_eq] at ok ⊢
  obtain ⟨written, outcome⟩ := Sink.put_limited limit (g.save headers .unlimited).2.written
  rw [g.save_eq_put headers ok, ← List.take_eq_take_min]
  exact ⟨outcome, written, trivial, trivial⟩

/-- A file that is hidden is saved all the same. If the sink is full in the middle of its record, it
is hidden again afterwards. -/
theorem save_limited_hidden :
    let g := (new .java).after [.createFile "Main", .hide (madeId 0)]
    let full := g.saveInPlace [] .unlimited
    let short := g.saveInPlace [] (.limited 280)
    full.2.1.outcome = .ok () ∧ full.2.1.written.length = 386 ∧
      short.2.1.outcome = .error (.transfer .sinkFull) ∧
      short.2.1.written = full.2.1.written.take 280 ∧
      short.2.2 = g ∧ short.2.2.isFiltered (madeId 0) = true := by
  dsimp only
  -- the graph is abstract while its file is cut off, so that nothing evaluates it
  generalize hidden : (new .java).after [.createFile "Main", .hide (madeId 0)] = g
  have facts : (g.saveInPlace [] .unlimited).2.1.outcome = .ok () ∧
      (g.saveInPlace [] .unlimited).2.1.written.length = 386 ∧ g.isFiltered (madeId 0) = true := by
    rw [← hidden]
    decide +kernel
  obtain ⟨ok, length, filtered⟩ := facts
  obtain ⟨outcome, written, left, -⟩ := g.save_limited [] 280 ok
  rw [length] at outcome written
  exact ⟨ok, length, outcome, written, left, by rw [left, filtered]⟩

end Graph

end CodeGraph
