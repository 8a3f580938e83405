import CodeGraph.IdSet
import CodeGraph.Node.Basic

/-!
# Node tables

The nodes of a graph, indexed by id. Positions without a node are holes. The table also answers
which ids containment edges reach from a node; cycles, shared children and ids without a node are
allowed.
-/

set_option autoImplicit false

namespace CodeGraph

/-- Nodes indexed by id, with holes. -/
structure NodeTable where
  /-- The node or hole at each position. -/
  items : Array (Option Node)
deriving DecidableEq, Repr

namespace NodeTable

def empty : NodeTable :=
  ⟨#[]⟩

/-- The positions as a table in which everything beyond the last one is a hole. -/
def table (t : NodeTable) : IdTable (Option Node) :=
  ⟨t.items, none⟩

def size (t : NodeTable) : Nat :=
  t.items.size

/-- The node with an id, if there is one. -/
def find? (t : NodeTable) (id : NodeId) : Option Node :=
  t.table.get id

/-- Whether there is a node with an id. -/
def contains (t : NodeTable) (id : NodeId) : Bool :=
  (t.find? id).isSome

/-- The table with a node put at an id. -/
def insert (t : NodeTable) (id : NodeId) (n : Node) : NodeTable :=
  ⟨(t.table.set id (some n)).items⟩

/-- The table with the node at an id changed; a hole stays a hole. -/
def update (t : NodeTable) (id : NodeId) (f : Node → Node) : NodeTable :=
  match t.find? id with
  | some n => t.insert id (f n)
  | none => t

/-- The nodes in the order of their ids. -/
def toList (t : NodeTable) : List Node :=
  t.items.toList.filterMap fun n? => n?

/-- The ids that the containment edges of a node point to; a hole has none. -/
def children (t : NodeTable) (id : NodeId) : List NodeId :=
  match t.find? id with
  | some n => n.children
  | none => []

/-- Goes through the ids on a stack, each with its children, and lists those met for the first time
before `found`. A round takes one id off the stack. -/
def reachRounds (t : NodeTable) :
    (rounds : Nat) → (stack : List NodeId) → (seen : IdSet) → (found : List NodeId) → List NodeId
  | 0, _, _, found => found
  | _ + 1, [], _, found => found
  | rounds + 1, id :: stack, seen, found =>
    if seen.contains id then t.reachRounds rounds stack seen found
    else t.reachRounds rounds (t.children id ++ stack) (seen.insert id) (id :: found)

def containmentCount (t : NodeTable) : Nat :=
  (t.toList.flatMap Node.children).length

/-- The ids that containment edges reach from an id, that id included, each once. Every id that is
met puts its children on the stack once, so no more rounds are needed than there are containment
edges and one. -/
def subtree (t : NodeTable) (id : NodeId) : List NodeId :=
  t.reachRounds (t.containmentCount + 1) [id] .empty []

/-- A node that was inserted is found. -/
@[simp] theorem find?_insert_same (t : NodeTable) (id : NodeId) (n : Node) :
    (t.insert id n).find? id = some n :=
  IdTable.get_set_same t.table id (some n)

/-- Inserting a node changes no other one. -/
@[simp] theorem find?_insert_other (t : NodeTable) {id other : NodeId} (different : other ≠ id)
    (n : Node) : (t.insert id n).find? other = t.find? other :=
  IdTable.get_set_other t.table different (some n)

/-- A table grows just enough for the id of a new node. -/
@[simp] theorem size_insert (t : NodeTable) (id : NodeId) (n : Node) :
    (t.insert id n).size = max t.size (id.index + 1) :=
  IdTable.size_set t.table id (some n)

end NodeTable

end CodeGraph
