import CodeGraph.Json
import CodeGraph.Walk.Basic

/-!
# Describing the nodes of a walk

A description lists the nodes of a walk as JSON: how deep each stands, its kind, name and parent,
and all of its edges. Texts are looked up, so a description can be read on its own; a text that
the table does not have is null.
-/

set_option autoImplicit false

namespace CodeGraph

/-- What has been described so far, and how deep the walk stands. -/
structure Description where
  /-- The nodes described, the last one first. -/
  entries : List Json := []
  /-- The number of nodes that have been entered and not left. -/
  depth : Nat := 0

namespace Description

/-- The text under a key, or null. -/
def ofText (texts : TextTable) (key : TextKey) : Json :=
  match texts.find? key with
  | some s => .text s
  | none => .null

def ofValue (texts : TextTable) : EdgeValue → Json
  | .text key => ofText texts key
  | .position p => .object [
      ("column", .number p.column.toNat),
      ("end_column", .number p.endColumn.toNat),
      ("end_line", .number p.endLine.toNat),
      ("line", .number p.line.toNat),
      ("realization_level", .text (Enumerated.name p.realization))]
  | .bound kind => .text (Enumerated.name kind)
  | .parameter kind => .text (Enumerated.name kind)

/-- An edge; what it carries stands in front. -/
def ofEdge (texts : TextTable) (e : Edge) : Json :=
  let carried :=
    match e.value with
    | some v => [("assoc", ofValue texts v)]
    | none => []
  .object (carried ++ [("kind", .text e.kind.name), ("target", .number e.target.index)])

/-- The edges of a node; a node without edges has no such member. -/
def edgeMembers (texts : TextTable) (n : Node) : List (String × Json) :=
  if n.edges.isEmpty then [] else [("edges", .list (n.edges.map (ofEdge texts)))]

/-- The name of a node; only named nodes have such a member. -/
def nameMembers (texts : TextTable) (n : Node) : List (String × Json) :=
  if n.isNamed then [("name", ofText texts n.name)] else []

/-- The parent of a node; roots have no such member. -/
def parentMembers (n : Node) : List (String × Json) :=
  match n.parentId? with
  | some parent => [("parent", .number parent.index)]
  | none => []

/-- A node at a depth. The members stand in the order of their names. -/
def ofNode (texts : TextTable) (depth : Nat) (n : Node) : Json :=
  .object ([("depth", .number depth)] ++ edgeMembers texts n ++
    [("id", .number n.id.index), ("kind", .text n.kind.name)] ++ nameMembers texts n ++
    parentMembers n)

def visitor (texts : TextTable) : Visitor Description where
  visit d n := ({ d with entries := ofNode texts d.depth n :: d.entries }, true)
  descend d := { d with depth := d.depth + 1 }
  ascend d := { d with depth := d.depth - 1 }

def toJson (d : Description) : Json :=
  .object [("nodes", .list d.entries.reverse)]

end Description

end CodeGraph
