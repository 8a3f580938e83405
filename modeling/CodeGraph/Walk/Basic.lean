import CodeGraph.Graph.Filtering

/-!
# Walks and who watches them

A walk goes through a graph from a node along its edges and reports every step. Whoever watches it
is a state machine: it takes a step and says whether it wants to see more. A visitor says so one
kind of event at a time. A crew is a list of such machines that watch one walk together; one that
has had enough hears nothing more, and the others go on.
-/

set_option autoImplicit false

namespace CodeGraph

/-- A step of a walk. -/
inductive Step
  /-- A node is reached, before any of its edges. -/
  | enter (n : Node)
  /-- An edge is reached, before the node it points to. -/
  | edge (e : Edge)
  /-- An edge has been dealt with. -/
  | endEdge (e : Edge)
  /-- A node has been dealt with, after all of its edges. -/
  | leave (n : Node)
deriving DecidableEq, Repr

/-- A machine that watches a walk: its next state, and whether it wants to see more. -/
abbrev Watcher (σ : Type) := σ → Step → σ × Bool

/-- What happens at each kind of event; by default nothing does, and the walk goes on. -/
structure Visitor (σ : Type) where
  /-- A node is reached. -/
  visit : σ → Node → σ × Bool := fun s _ => (s, true)
  /-- The walk turns from a node to its edges. -/
  descend : σ → σ := fun s => s
  /-- An edge is reached. -/
  edge : σ → Edge → σ × Bool := fun s _ => (s, true)
  /-- An edge has been dealt with. -/
  endEdge : σ → Edge → σ × Bool := fun s _ => (s, true)
  /-- The walk turns back from the edges of a node. -/
  ascend : σ → σ := fun s => s
  /-- A node has been dealt with. -/
  visitEnd : σ → Node → σ × Bool := fun s _ => (s, true)

/-- A visitor as a machine. One that ends at a node does not turn to its edges. -/
def Visitor.watch {σ : Type} (v : Visitor σ) : Watcher σ
  | s, .enter n =>
    match v.visit s n with
    | (s, true) => (v.descend s, true)
    | (s, false) => (s, false)
  | s, .edge e => v.edge s e
  | s, .endEdge e => v.endEdge s e
  | s, .leave n => v.visitEnd (v.ascend s) n

/-- Machines that watch one walk, each with whether it still does. -/
abbrev Crew (σ : Type) := List (σ × Bool)

namespace Crew

variable {σ : Type}

/-- A crew of which everyone watches. -/
def ofList (states : List σ) : Crew σ :=
  states.map fun s => (s, true)

/-- The states of all members. -/
def states (crew : Crew σ) : List σ :=
  crew.map Prod.fst

/-- Whether anyone still watches. -/
def isWatching (crew : Crew σ) : Bool :=
  crew.any Prod.snd

/-- How a crew takes a step: those that still watch take it, and it goes on while anyone does. -/
def watch (w : Watcher σ) : Watcher (Crew σ) := fun crew step =>
  let next := crew.map fun member => if member.2 then w member.1 step else member
  (next, isWatching next)

end Crew

/-- Which nodes a walk goes to. -/
structure WalkPlan where
  /-- No node is entered twice. -/
  safe : Bool := false
  /-- The targets of all edges that are no containment are collected and walked to in the end. -/
  crossEdgeTree : Bool := false
  /-- The kinds of edges that are followed besides containment. -/
  crossEdges : EdgeSet := .empty
  /-- Hidden nodes are treated like any other. -/
  seesFiltered : Bool := false
  /-- The special nodes that a walk did not reach are walked to in the end. -/
  special : Bool := true
  /-- Special nodes are not entered on the way but collected, and walked to in the end. -/
  usedOnly : Bool := false
deriving DecidableEq, Repr

namespace WalkPlan

/-- Whether a walk has to remember the nodes it has entered. -/
def remembers (plan : WalkPlan) : Bool :=
  plan.safe || plan.crossEdgeTree || plan.special

/-- Whether a walk collects the target of an edge. Only a walk from a root collects. -/
def collects (plan : WalkPlan) (rooted : Bool) (kind : EdgeKind) (target : Node) : Bool :=
  rooted && ((plan.crossEdgeTree && !kind.isContainment) ||
    (plan.usedOnly && target.kind.isSpecial))

/-- Whether a walk goes on to the target of an edge at once. -/
def follows (plan : WalkPlan) (rooted : Bool) (kind : EdgeKind) (target : Node) : Bool :=
  if kind.isContainment then !(rooted && plan.usedOnly && target.kind.isSpecial)
  else plan.crossEdges.contains kind

/-- Whether a walk passes by a node because it is hidden. -/
def hides (plan : WalkPlan) (g : Graph) (id : NodeId) : Bool :=
  !plan.seesFiltered && g.isFiltered id

end WalkPlan

end CodeGraph
