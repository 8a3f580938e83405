import CodeGraph.GraphFile.Records
import CodeGraph.Walk.Records
import CodeGraph.Walk.Run

/-!
# Saving a graph

A graph file holds the header records, then one record for each node in the order of a safe walk
over the whole graph, hidden nodes included, then a mark that ends the nodes, and the texts. There
is always a record with the properties of the file, and it comes first.
-/

set_option autoImplicit false

namespace CodeGraph

namespace GraphFile

def writeRecord (sink : Sink) (h : Header) : Sink :=
  (sink.put (wordBytes 2 (Enumerated.code h.kind))).putResult (h.encode.map Codec.encodeBlock)

/-- Fills in and writes the headers that are stored as properties; the others are left alone. Once
the sink has failed nothing more is filled in. -/
def writeProperties (language : Language) : List Header → Sink → List Header × Sink
  | [], sink => ([], sink)
  | h :: rest, sink =>
    if h.isProperties then
      let filled := if sink.isOk then h.describe language else h
      let others := writeProperties language rest (writeRecord sink filled)
      (filled :: others.1, others.2)
    else
      let others := writeProperties language rest sink
      (h :: others.1, others.2)

/-- Writes all header records and gives the headers with what was filled in. A file whose headers
have no properties gets some of its own. -/
def writeHeaders (language : Language) (headers : List Header) (sink : Sink) :
    List Header × Sink :=
  let others := headers.filter fun h => !h.isProperties
  if headers.any Header.isProperties then
    let (filled, sink) := writeProperties language headers (sink.put (wordBytes 4 headers.length))
    (filled, others.foldl writeRecord sink)
  else
    let own := Header.properties (Properties.empty.describe language)
    (headers, others.foldl writeRecord
      (writeRecord (sink.put (wordBytes 4 (headers.length + 1))) own))

/-- Writes the nodes that a safe walk over the whole graph comes to; hidden nodes are left out while
the filter is in force. -/
def writeShown (g : Graph) (sink : Sink) : Sink :=
  (g.walkFrom { safe := true } RecordWriter.visitor.watch { sink } none 0).watcher.sink

def writeNodes (g : Graph) (sink : Sink) : Sink :=
  writeShown g.turnFilterOff sink

/-- The mark that ends the nodes: an id and a kind that are both zero. -/
def endOfNodes : Bytes :=
  wordBytes 4 0 ++ wordBytes 2 0

end GraphFile

/-- Writes a graph and headers. Besides the sink, which tells the outcome, this gives the headers
with what was filled in. -/
def Graph.save (g : Graph) (headers : List Header) (sink : Sink) : List Header × Sink :=
  let (filled, sink) := GraphFile.writeHeaders g.language headers (sink.put GraphFile.magic)
  (filled, ((GraphFile.writeNodes g sink).put GraphFile.endOfNodes).put g.texts.save)

/-- Writes a graph and headers in place: the filter of the graph is out of force while its nodes are
written. Besides the headers and the sink, this gives the graph that is left. A sink that fails
before the nodes does not come to touch the filter. -/
def Graph.saveInPlace (g : Graph) (headers : List Header) (sink : Sink) :
    List Header × Sink × Graph :=
  let (filled, sink) := GraphFile.writeHeaders g.language headers (sink.put GraphFile.magic)
  if sink.isOk then
    let unhidden := g.turnFilterOff
    let sink := GraphFile.writeShown unhidden sink
    let left := unhidden.restoreFilter g.filterOn
    (filled, (sink.put GraphFile.endOfNodes).put left.texts.save, left)
  else
    (filled, sink, g)

end CodeGraph
