import CodeGraph.Graph.Basic

/-!
# Edges of a graph

An edge may be added if its source exists and has such edges, its target exists and is of the
right kind, and the value it carries is of the right kind. A containment edge makes its source the
parent of its target. Removing it takes the parent away again if it is that source. The index of
incoming edges, if there is one, follows every change.
-/

set_option autoImplicit false

namespace CodeGraph

namespace Graph

/-- Whether a node may be the target of edges of a kind. -/
def checkTarget (g : Graph) (site : Site) (e : EdgeKind) (target : NodeId) : Except Error Unit :=
  match g.find? target with
  | none => .error (.noSuchNode site target.raw)
  | some n => if n.is e.target then .ok () else .error (.wrongKind site n.kind)

def checkEdge (g : Graph) (site : Site) (e : EdgeKind) (source target : NodeId)
    (value : Option EdgeValue) : Except Error Unit :=
  match g.find? source with
  | none => .error (.noSuchNode site source.raw)
  | some n =>
    if n.hasEdgeKind e then
      match g.checkTarget site e target with
      | .error cause => .error cause
      | .ok () =>
        if EdgeValue.kindOf value = e.carries then .ok ()
        else .error (.refused site (.wrongValue e))
    else
      .error (.edgeUnavailable site e n.kind)

/-- Undoes what follows from an edge that its source no longer has. -/
def unlink (g : Graph) (e : EdgeKind) (source target : NodeId) : Graph :=
  let freed :=
    if e.isContainment then
      g.updateNode target fun n =>
        if n.parentId? = some source then { n with parent := none } else n
    else
      g
  { freed with index := freed.index.map fun x => x.removeEdge e source target }

/-- The edge that adding one replaces, if the kind allows only one edge. -/
def replacedTarget? (g : Graph) (e : EdgeKind) (source : NodeId) : Option NodeId :=
  match g.find? source with
  | some n => (n.replaced? e).map Target.id
  | none => none

/-- Tells the index of incoming edges of a new edge. -/
def indexEdge (g : Graph) (e : EdgeKind) (source target : NodeId) : Graph :=
  { g with index := g.index.map fun x => x.insertEdge e source target }

/-- Adds an edge and all that follows from it. Both nodes are looked up again, the target when the
edge is there already. -/
def insertEdge (g : Graph) (e : EdgeKind) (source : NodeId) (t : Target) :
    Except Error Unit × Graph :=
  match g.editNode .addEdge source fun n => n.addTarget e t with
  | (.error cause, g) => (.error cause, g)
  | (.ok (), added) =>
    let unlinked :=
      match g.replacedTarget? e source with
      | some previous => added.unlink e source previous
      | none => added
    if e.isContainment then
      match unlinked.editNode .addEdge t.id fun n => { n with parent := some ⟨source, e⟩ } with
      | (.error cause, g) => (.error cause, g)
      | (.ok (), owned) => (.ok (), owned.indexEdge e source t.id)
    else
      (.ok (), unlinked.indexEdge e source t.id)

/-- Adds an edge that carries no value. -/
def addEdge (g : Graph) (e : EdgeKind) (source target : NodeId) : Except Error Unit × Graph :=
  match g.checkEdge .addEdge e source target none with
  | .error cause => (.error cause, g)
  | .ok () => g.insertEdge e source { id := target }

/-- Adds an edge that carries a value. -/
def addValueEdge (g : Graph) (e : EdgeKind) (source target : NodeId) (value : EdgeValue) :
    Except Error Unit × Graph :=
  match g.checkEdge .addValueEdge e source target (some value) with
  | .error cause => (.error cause, g)
  | .ok () => g.insertEdge e source ⟨target, some value⟩

/-- Removes the first edge of a kind between two nodes and says whether there was one. -/
def removeEdge (g : Graph) (e : EdgeKind) (source target : NodeId) : Except Error Bool × Graph :=
  match g.find? source with
  | none => (.error (.noSuchNode .removeEdge source.raw), g)
  | some n =>
    if n.pointsTo e target then
      let removed := g.updateNode source fun n => n.removeTarget e target
      (.ok true, removed.unlink e source target)
    else
      (.ok false, g)

/-- Sets the edge of a kind that allows only one, or clears it. -/
def setEdge (g : Graph) (e : EdgeKind) (source : NodeId) (target : Option NodeId) :
    Except Error Unit × Graph :=
  if e.isSingle then
    match target with
    | some target =>
      match g.checkEdge .setEdge e source target none with
      | .error cause => (.error cause, g)
      | .ok () => g.insertEdge e source { id := target }
    | none =>
      match g.find? source with
      | none => (.error (.noSuchNode .setEdge source.raw), g)
      | some n =>
        match n.single? e with
        | none => (.ok (), g)
        | some previous =>
          match g.removeEdge e source previous with
          | (.error cause, g) => (.error cause, g)
          | (.ok _, g) => (.ok (), g)
  else
    (.error (.refused .setEdge (.notSingleValued e)), g)

/-- The graph with an index of incoming edges for a selector: the one it keeps if that has the same
selector, otherwise a new one. -/
def withIndex (g : Graph) (selector : EdgeSelector) : IncomingIndex × Graph :=
  match g.index with
  | some x =>
    if x.selector = selector then (x, g)
    else
      let built := IncomingIndex.build g.nodes selector
      (built, { g with index := some built })
  | none =>
    let built := IncomingIndex.build g.nodes selector
    (built, { g with index := some built })

end Graph

end CodeGraph
