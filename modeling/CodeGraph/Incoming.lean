import CodeGraph.Node.Table

/-!
# Index of incoming edges

Edges are kept with the node they start at. The index lists, for each node, the edges that point
to it, for the edge kinds that its selector picks. It is built in one pass over all nodes and can
be kept up to date one edge at a time.
-/

set_option autoImplicit false

namespace CodeGraph

/-- An edge seen from its far end. -/
structure Incoming where
  kind : EdgeKind
  source : NodeId
deriving DecidableEq, Repr

/-- The incoming edges of each node. -/
structure IncomingIndex where
  selector : EdgeSelector
  /-- The incoming edges at each position; positions without a node may have no list. -/
  entries : Array (Option (List Incoming))
deriving DecidableEq, Repr

namespace IncomingIndex

def empty (selector : EdgeSelector) : IncomingIndex :=
  ⟨selector, #[]⟩

/-- The entries as a table without lists beyond the last position. -/
def table (x : IncomingIndex) : IdTable (Option (List Incoming)) :=
  ⟨x.entries, none⟩

/-- Whether edges of a kind are recorded. -/
def selects (x : IncomingIndex) (e : EdgeKind) : Bool :=
  x.selector.selects e

/-- The recorded edges that point to an id, if the index knows the id. -/
def entry? (x : IncomingIndex) (id : NodeId) : Option (List Incoming) :=
  x.table.get id

/-- The recorded edges that point to an id. -/
def incoming (x : IncomingIndex) (id : NodeId) : List Incoming :=
  (x.entry? id).getD []

/-- The index with the list of an id set. -/
def setEntry (x : IncomingIndex) (id : NodeId) (edges : List Incoming) : IncomingIndex :=
  { x with entries := (x.table.set id (some edges)).items }

def contains (x : IncomingIndex) (id : NodeId) : Bool :=
  (x.entry? id).isSome

/-- The index that knows one more id; the edges of a known id stay. -/
def insertNode (x : IncomingIndex) (id : NodeId) : IncomingIndex :=
  if x.contains id then x else x.setEntry id []

/-- The index with one more edge, if its kind is recorded. -/
def insertEdge (x : IncomingIndex) (e : EdgeKind) (source target : NodeId) : IncomingIndex :=
  if x.selects e then x.setEntry target (x.incoming target ++ [⟨e, source⟩]) else x

/-- The index without the first of the edges of a kind between two nodes. -/
def removeEdge (x : IncomingIndex) (e : EdgeKind) (source target : NodeId) : IncomingIndex :=
  if x.contains target then x.setEntry target ((x.incoming target).erase ⟨e, source⟩) else x

/-- The index of a table of nodes. -/
def build (nodes : NodeTable) (selector : EdgeSelector) : IncomingIndex :=
  let known := nodes.toList.foldl (fun x n => x.insertNode n.id) (empty selector)
  (nodes.toList.flatMap Node.edges).foldl (fun x e => x.insertEdge e.kind e.source e.target) known

/-- The sources of the recorded edges of a kind that point to a node, in the order of recording. -/
def sources (x : IncomingIndex) (target : NodeId) (e : EdgeKind) : List NodeId :=
  ((x.incoming target).filter fun edge => edge.kind = e).map Incoming.source

/-- The number of recorded edges of a kind that point to a node. -/
def count (x : IncomingIndex) (target : NodeId) (e : EdgeKind) : Nat :=
  (x.sources target e).length

/-- The kinds of the recorded edges that point to a node, in the order of declaration. -/
def edgeKinds (x : IncomingIndex) (target : NodeId) : List EdgeKind :=
  (EdgeSet.ofList ((x.incoming target).map Incoming.kind)).kinds

end IncomingIndex

end CodeGraph
