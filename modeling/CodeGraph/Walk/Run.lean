import CodeGraph.Walk.Basic

/-!
# Running a walk

A walk enters a node, goes through its edges in order, goes on to the targets of those that its
plan follows, and leaves the node. A walk without a root starts at every node that has no parent.
A walk from a root may end with two more passes: over the special nodes it has not reached, and
over the nodes it has collected, which may collect more.

Walks that enter nodes again and again around a cycle have no end of their own. So a walk has a
limit on how deep it goes and how many rounds it makes over the collected nodes. The limit lies
above the size of the graph, which no walk exceeds that enters every node at most once or that
meets no cycle; a walk that reaches it says that it got lost.
-/

set_option autoImplicit false

namespace CodeGraph

/-- How a walk stands. -/
inductive Progress
  /-- It goes on, or has come to its end. -/
  | going
  /-- Nobody wants to see more. -/
  | stopped
  /-- It has reached its limit. -/
  | lost
deriving DecidableEq, Repr

/-- A walk on its way. -/
structure Walk (τ : Type) where
  /-- The state of the one who watches. -/
  watcher : τ
  /-- The nodes entered, if the plan needs to know. -/
  visited : IdSet
  /-- The nodes collected for the last pass. -/
  pending : IdSet := .empty
  progress : Progress := .going

namespace Walk

variable {τ : Type}

def isGoing (w : Walk τ) : Bool :=
  w.progress == .going

def tell (watch : Watcher τ) (step : Step) (w : Walk τ) : Walk τ :=
  if w.isGoing then
    match watch w.watcher step with
    | (s, true) => { w with watcher := s }
    | (s, false) => { w with watcher := s, progress := .stopped }
  else
    w

def mark (id : NodeId) (w : Walk τ) : Walk τ :=
  { w with visited := w.visited.insert id }

/-- Collects a node that has not been entered. -/
def collect (id : NodeId) (w : Walk τ) : Walk τ :=
  if w.visited.contains id then w else { w with pending := w.pending.insert id }

/-- Takes a node off the collected ones. -/
def drop (id : NodeId) (w : Walk τ) : Walk τ :=
  { w with pending := w.pending.erase id }

def lose (w : Walk τ) : Walk τ :=
  if w.isGoing then { w with progress := .lost } else w

/-- What stays the same during a walk. -/
structure Course (τ : Type) where
  graph : Graph
  plan : WalkPlan
  rooted : Bool
  watch : Watcher τ

namespace Course

variable (c : Course τ)

/-- Goes through one edge; `enter` goes on to a node. Edges to hidden and to missing nodes are
passed by. -/
def cross (enter : Node → Walk τ → Walk τ) (w : Walk τ) (e : Edge) : Walk τ :=
  if !w.isGoing || c.plan.hides c.graph e.target then w
  else
    match c.graph.find? e.target with
    | none => w
    | some target =>
      let w := if c.plan.collects c.rooted e.kind target then w.collect e.target else w
      let w := w.tell c.watch (.edge e)
      let w := if c.plan.follows c.rooted e.kind target then enter target w else w
      w.tell c.watch (.endEdge e)

/-- Enters a node, goes through its edges, and leaves it. A safe walk does not enter twice. -/
def enter : (depth : Nat) → Node → Walk τ → Walk τ
  | 0, _, w => w.lose
  | depth + 1, n, w =>
    if !w.isGoing || (c.plan.safe && w.visited.contains n.id) then w
    else
      let w := if c.plan.remembers then w.mark n.id else w
      let w := w.tell c.watch (.enter n)
      let w := n.edges.foldl (c.cross (enter depth)) w
      w.tell c.watch (.leave n)

def enterAll (depth : Nat) (nodes : List Node) (w : Walk τ) : Walk τ :=
  nodes.foldl (fun w n => c.enter depth n w) w

/-- The nodes at which a walk without a root starts. -/
def starts : List Node :=
  c.graph.nodeList.filter fun n => n.parent.isNone && !c.plan.hides c.graph n.id

/-- Enters a special node that is not hidden and has not been entered. -/
def enterSpecial (depth : Nat) (w : Walk τ) (n : Node) : Walk τ :=
  if n.kind.isSpecial && !c.plan.hides c.graph n.id && !w.visited.contains n.id then
    c.enter depth n w
  else
    w

/-- Enters a collected node, unless it has been entered by now, or is hidden or missing. -/
def enterCollected (depth : Nat) (w : Walk τ) (id : NodeId) : Walk τ :=
  if w.isGoing then
    let w := w.drop id
    if w.visited.contains id || c.plan.hides c.graph id then w
    else
      match c.graph.find? id with
      | none => w
      | some n => c.enter depth n w
  else
    w

/-- Makes rounds over the collected nodes until none is left. -/
def finish (depth : Nat) : (rounds : Nat) → Walk τ → Walk τ
  | 0, w => w.lose
  | rounds + 1, w =>
    if !w.isGoing || w.pending.isEmpty then w
    else finish depth rounds (w.pending.toList.foldl (c.enterCollected depth) w)

/-- The whole walk: from every start, or from a root and then over special and collected nodes. -/
def run (limit : Nat) (root : Option Node) (w : Walk τ) : Walk τ :=
  match root with
  | none => c.enterAll limit c.starts w
  | some n =>
    let w := c.enter limit n w
    let w :=
      if c.plan.special && !c.plan.usedOnly then
        c.graph.nodeList.foldl (c.enterSpecial limit) w
      else
        w
    if c.plan.crossEdgeTree || c.plan.usedOnly then c.finish limit limit w else w

end Course

end Walk

namespace Graph

variable {σ τ : Type}

/-- Walks through a graph, from a root or from every node without a parent. The limit of the walk
is the size of the graph and `patience` beyond it. -/
def walkFrom (g : Graph) (plan : WalkPlan) (watch : Watcher τ) (start : τ) (root : Option Node)
    (patience : Nat) : Walk τ :=
  Walk.Course.run ⟨g, plan, root.isSome, watch⟩ (g.size + 2 + patience) root
    { watcher := start, visited := .withRoom g.size }

/-- Walks through a graph from the node with an id, if one is given. -/
def walk (g : Graph) (plan : WalkPlan) (watch : Watcher τ) (start : τ) (root : Option NodeId)
    (patience : Nat) : Except Error (Walk τ) :=
  match root with
  | none => .ok (g.walkFrom plan watch start none patience)
  | some id =>
    match g.node .walk id with
    | .error cause => .error cause
    | .ok n => .ok (g.walkFrom plan watch start (some n) patience)

/-- Walks through a graph for a crew. A crew of nobody sees nothing. -/
def walkWith (g : Graph) (plan : WalkPlan) (watch : Watcher σ) (states : List σ)
    (root : Option NodeId) (patience : Nat) : Except Error (Walk (Crew σ)) :=
  g.walk plan (Crew.watch watch) (Crew.ofList states) root patience

/-- Walks in breadth-first order are not offered. -/
def walkBreadthFirst (_ : Graph) (_ : WalkPlan) (_ : Option NodeId) : Except Error Unit :=
  .error (.unsupported .breadthFirst)

end Graph

end CodeGraph
