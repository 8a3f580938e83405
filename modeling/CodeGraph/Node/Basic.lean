import CodeGraph.Node.Attributes

/-!
# Nodes

A node has an id, a kind, a name, attributes, at most one parent, and its outgoing edges, grouped
in slots: one slot for each edge kind that is available on nodes of its kind, in the order in
which edges are walked and written.
-/

set_option autoImplicit false

namespace CodeGraph

/-- The far end of an edge: the node it points to and the value it carries. -/
structure Target where
  id : NodeId
  value : Option EdgeValue := none
deriving DecidableEq, Repr

/-- An edge together with the node it starts at. -/
structure Edge where
  kind : EdgeKind
  source : NodeId
  target : NodeId
  value : Option EdgeValue
deriving DecidableEq, Repr

/-- The edges of one kind that start at one node. -/
structure Slot where
  kind : EdgeKind
  /-- Their far ends, in the order of insertion. -/
  targets : List Target := []
deriving DecidableEq, Repr

/-- The node that contains another one, and the edge kind through which it does. -/
structure Parent where
  id : NodeId
  edge : EdgeKind
deriving DecidableEq, Repr

/-- A node of a graph. -/
structure Node where
  id : NodeId
  kind : NodeKind
  /-- The parent; nodes without one are roots. -/
  parent : Option Parent := none
  /-- The name; nodes that are not named keep the empty one. -/
  name : TextKey := .empty
  /-- The attributes of the layers of its kind. -/
  attributes : Attributes
  slots : List Slot
deriving DecidableEq, Repr

namespace Node

/-- The empty slots of a fresh node. -/
def slotsOf (kind : NodeKind) : List Slot :=
  kind.edgeKinds.map fun e => { kind := e }

/-- A fresh node: no name, no parent, no edges, default attributes. -/
def fresh (id : NodeId) (kind : NodeKind) : Node where
  id := id
  kind := kind
  attributes := .ofKind kind
  slots := slotsOf kind

/-- Whether the kind of a node is `kind` or extends it. -/
def is (n : Node) (kind : NodeKind) : Bool :=
  n.kind.isKindOf kind

def isNamed (n : Node) : Bool :=
  n.is .named

def parentId? (n : Node) : Option NodeId :=
  n.parent.map Parent.id

/-- The node with another name; nodes that are not named stay as they are. -/
def setName (n : Node) (name : TextKey) : Node :=
  if n.isNamed then { n with name } else n

/-- The edge kinds that may start at a node. -/
def edgeKinds (n : Node) : List EdgeKind :=
  n.slots.map Slot.kind

def slot? (n : Node) (e : EdgeKind) : Option Slot :=
  n.slots.find? fun s => s.kind = e

/-- Whether edges of a kind may start at a node. -/
def hasEdgeKind (n : Node) (e : EdgeKind) : Bool :=
  (n.slot? e).isSome

/-- The far ends of the edges of one kind, in the order of insertion. -/
def targets (n : Node) (e : EdgeKind) : List Target :=
  match n.slot? e with
  | some s => s.targets
  | none => []

/-- The node that the first edge of a kind points to. -/
def single? (n : Node) (e : EdgeKind) : Option NodeId :=
  (n.targets e).head?.map Target.id

/-- All outgoing edges, in the order in which they are walked. -/
def edges (n : Node) : List Edge :=
  n.slots.flatMap fun s => s.targets.map fun t => ⟨s.kind, n.id, t.id, t.value⟩

/-- The nodes that the containment edges of a node point to, in the order of the edges. -/
def children (n : Node) : List NodeId :=
  (n.edges.filter fun e => e.kind.isContainment).map Edge.target

/-- Changes the first slot of an edge kind. -/
def updateSlot (e : EdgeKind) (f : List Target → List Target) : List Slot → List Slot
  | [] => []
  | s :: rest =>
    if s.kind = e then { s with targets := f s.targets } :: rest else s :: updateSlot e f rest

/-- The node with the far ends of its edges of one kind changed. -/
def mapTargets (n : Node) (e : EdgeKind) (f : List Target → List Target) : Node :=
  { n with slots := updateSlot e f n.slots }

/-- The edge that an added edge replaces: the last one, if the kind allows only one. -/
def replaced? (n : Node) (e : EdgeKind) : Option Target :=
  if e.isSingle then (n.targets e).getLast? else none

/-- The node with one more edge; a kind that allows only one edge loses its last one. -/
def addTarget (n : Node) (e : EdgeKind) (t : Target) : Node :=
  n.mapTargets e fun ts => (if e.isSingle then ts.dropLast else ts) ++ [t]

/-- Whether an edge of a kind points to a node. -/
def pointsTo (n : Node) (e : EdgeKind) (target : NodeId) : Bool :=
  (n.targets e).any fun t => t.id = target

/-- The node without its first edge of a kind to a given node. -/
def removeTarget (n : Node) (e : EdgeKind) (target : NodeId) : Node :=
  n.mapTargets e fun ts => ts.eraseP fun t => t.id = target

/-- The node with another kind. Edges stay in the slots that both kinds have. -/
def promote (n : Node) (kind : NodeKind) : Node :=
  { n with
    kind
    slots := (slotsOf kind).map fun s => { s with targets := n.targets s.kind } }

end Node

end CodeGraph
