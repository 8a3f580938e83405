import CodeGraph.Graph.Files
import CodeGraph.Graph.Filtering
import CodeGraph.Graph.Singletons
import CodeGraph.GraphFile.Load

/-!
# Operations

Everything that can be done to a graph, as data. Performing an operation gives its answer or its
error, and the graph it leaves; what it did before a failure stays in that graph. A history is a list
of operations performed one after the other, failures included.
-/

set_option autoImplicit false

namespace CodeGraph

/-- Something that can be done to a graph. -/
inductive Operation
  | setLanguage (language : Language)
  | clear
  | intern (text : String)
  | loadTexts (input : Bytes)
  | createNode (kind : NodeKind)
  | createNodeWithId (kind : NodeKind) (id : NodeId)
  | replaceNode (id : NodeId) (kind : NodeKind)
  | simpleType (kind : SimpleTypeKind)
  | pointerFormer (kind : PointerKind)
  | arrayFormer
  | nonTypeFormer
  | typeReference (refersTo : Option NodeId)
  | methodFormer
  | attributeAccess (accessed : NodeId)
  | methodCall (method : NodeId)
  | comment (text : String)
  | component (name : String)
  | friendship (grantee : String)
  | buildType (stack : List NodeId)
  | createFile (path : String)
  | createFileFrom (path : String) (start : NodeId)
  | setName (id : NodeId) (name : String)
  | setNameKey (id : NodeId) (name : TextKey)
  | setAttributes (id : NodeId) (attributes : Attributes)
  | addEdge (edge : EdgeKind) (source target : NodeId)
  | addValueEdge (edge : EdgeKind) (source target : NodeId) (value : EdgeValue)
  | setEdge (edge : EdgeKind) (source : NodeId) (target : Option NodeId)
  | removeEdge (edge : EdgeKind) (source target : NodeId)
  | buildIndex (selector : EdgeSelector)
  | turnFilterOn
  | turnFilterOff
  | hide (id : NodeId)
  | reveal (id : NodeId)
  | hideOnly (id : NodeId)
  | revealOnly (id : NodeId)
  | resetFilter
  | loadFilter (input : Bytes)
  | load (headers : List Header) (input : Bytes)
deriving DecidableEq, Repr

/-- What an operation that succeeds answers. -/
inductive Answer
  | done
  | node (id : NodeId)
  | text (key : TextKey)
  | flag (yes : Bool)
deriving DecidableEq, Repr

/-- The answer or the error of an operation, and the graph it leaves. -/
abbrev Outcome := Except Error Answer × Graph

namespace Outcome

/-- The outcome of an operation that cannot fail. -/
def done (g : Graph) : Outcome :=
  (.ok .done, g)

/-- The outcome of an operation that gives a node. -/
def node (result : NodeId × Graph) : Outcome :=
  (.ok (.node result.1), result.2)

/-- The outcome of an operation that may fail and leaves a graph in either case. -/
def half (result : Except Error Unit × Graph) : Outcome :=
  (result.1.map fun _ => .done, result.2)

/-- The outcome of an operation that gives a node and may fail. -/
def nodeHalf (result : Except Error NodeId × Graph) : Outcome :=
  (result.1.map .node, result.2)

/-- The outcome of an operation that answers yes or no and may fail. -/
def flagHalf (result : Except Error Bool × Graph) : Outcome :=
  (result.1.map .flag, result.2)

end Outcome

/-- Changes a node if it exists, and says whether it does. -/
def Graph.touch (g : Graph) (id : NodeId) (f : Node → Node) : Outcome :=
  match g.find? id with
  | some _ => (.ok (.flag true), g.updateNode id f)
  | none => (.ok (.flag false), g)

/-- Performs an operation. -/
def Operation.perform (g : Graph) : Operation → Outcome
  | .setLanguage language => .done { g with language }
  | .clear => .done g.clear
  | .intern text =>
    let (key, g) := g.intern text
    (.ok (.text key), g)
  | .loadTexts input =>
    let (texts, result) := g.texts.load input
    .half (result.map fun _ => (), { g with texts })
  | .createNode kind => .nodeHalf (g.createNode kind)
  | .createNodeWithId kind id => .nodeHalf (g.createNodeWithId kind id)
  | .replaceNode id kind => .half (g.replaceNode id kind)
  | .simpleType kind => .node (g.simpleType kind)
  | .pointerFormer kind => .node (g.pointerFormer kind)
  | .arrayFormer => .node g.arrayFormer
  | .nonTypeFormer => .node g.nonTypeFormer
  | .typeReference refersTo => .nodeHalf (g.typeReference refersTo)
  | .methodFormer => .node g.methodFormer
  | .attributeAccess accessed => .nodeHalf (g.attributeAccess accessed)
  | .methodCall method => .nodeHalf (g.methodCall method)
  | .comment text => .node (g.comment text)
  | .component name => .node (g.component name)
  | .friendship grantee => .node (g.friendship grantee)
  | .buildType stack => .nodeHalf (g.buildType stack)
  | .createFile path => .nodeHalf (g.createFile path)
  | .createFileFrom path start => .nodeHalf (g.createFileFrom path start)
  | .setName id name => .half (g.setName id name)
  | .setNameKey id name => g.touch id fun n => n.setName name
  | .setAttributes id attributes => g.touch id fun n => { n with attributes }
  | .addEdge edge source target => .half (g.addEdge edge source target)
  | .addValueEdge edge source target value => .half (g.addValueEdge edge source target value)
  | .setEdge edge source target => .half (g.setEdge edge source target)
  | .removeEdge edge source target => .flagHalf (g.removeEdge edge source target)
  | .buildIndex selector => .done (g.withIndex selector).2
  | .turnFilterOn => .done g.turnFilterOn
  | .turnFilterOff => .done g.turnFilterOff
  | .hide id => .half (g.hide id)
  | .reveal id => .half (g.reveal id)
  | .hideOnly id => .half (g.hideOnly id)
  | .revealOnly id => .half (g.revealOnly id)
  | .resetFilter => .done g.resetFilter
  | .loadFilter input => .half (g.loadFilter input)
  | .load headers input =>
    let (result, _, g) := g.load headers input
    .half (result, g)

/-- The graph that a history leaves. -/
def Graph.after (g : Graph) (history : List Operation) : Graph :=
  history.foldl (fun g operation => (operation.perform g).2) g

end CodeGraph
