import CodeGraph.Graph.Basic

/-!
# Hiding and showing nodes

The filter of a graph hides nodes while it is in force. Hiding and showing follow containment; the
operations on one node only do not, and need the node to exist.
-/

set_option autoImplicit false

namespace CodeGraph

namespace Graph

def turnFilterOn (g : Graph) : Graph :=
  { g with filterOn := true }

def turnFilterOff (g : Graph) : Graph :=
  { g with filterOn := false }

/-- What a stretch of work with the filter out of force leaves behind: the filter is in force
afterwards if it was before. -/
def restoreFilter (wasOn : Bool) (g : Graph) : Graph :=
  if wasOn then g.turnFilterOn else g

def isFiltered (g : Graph) (id : NodeId) : Bool :=
  g.filterOn && g.filter.isFiltered id

/-- Hides a node and all that containment reaches from it. -/
def hide (g : Graph) (id : NodeId) : Except Error Unit × Graph :=
  let (filter, result) := g.filter.hide g.nodes id
  (result, { g with filter })

/-- Shows a node, all that containment reaches from it, and its ancestors. -/
def reveal (g : Graph) (id : NodeId) : Except Error Unit × Graph :=
  let (filter, result) := g.filter.reveal g.nodes id
  (result, { g with filter })

/-- Sets the state of one existing node. -/
def setFilterState (g : Graph) (site : Site) (id : NodeId) (state : FilterState) :
    Except Error Unit × Graph :=
  match g.find? id with
  | none => (.error (.noSuchNode site id.raw), g)
  | some _ => (.ok (), { g with filter := g.filter.set id state })

def hideOnly (g : Graph) (id : NodeId) : Except Error Unit × Graph :=
  g.setFilterState .hideNodeOnly id .filtered

def revealOnly (g : Graph) (id : NodeId) : Except Error Unit × Graph :=
  g.setFilterState .showNodeOnly id .notFiltered

/-- Shows every node and makes the filter cover exactly the graph. -/
def resetFilter (g : Graph) : Graph :=
  { g with filter := (g.filter.resize g.size).reset }

/-- Replaces the filter by a stored one that covers exactly the graph. -/
def loadFilter (g : Graph) (input : Bytes) : Except Error Unit × Graph :=
  let (filter, result) := g.filter.load g.size input
  (result, { g with filter })

end Graph

end CodeGraph
