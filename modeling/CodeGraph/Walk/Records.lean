import CodeGraph.Binary.Sink
import CodeGraph.Node.Payload
import CodeGraph.Walk.Basic

/-!
# Writing the nodes of a walk

Every node that a walk enters is written to a sink as one record: its id, its kind and its
payload. A sink that fails ends the writing.
-/

set_option autoImplicit false

namespace CodeGraph

/-- A sink and how many nodes have been written to it. -/
structure RecordWriter where
  sink : Sink
  count : Nat := 0
deriving DecidableEq, Repr

namespace RecordWriter

def write (w : RecordWriter) (n : Node) : RecordWriter × Bool :=
  let sink := w.sink.put n.record
  if sink.isOk then ({ sink, count := w.count + 1 }, true) else ({ w with sink }, false)

def visitor : Visitor RecordWriter where
  visit := write

/-- The number of nodes written, or the failure that ended the writing. -/
def finish (w : RecordWriter) : Except Error Nat :=
  w.sink.outcome.map fun _ => w.count

end RecordWriter

end CodeGraph
