import CodeGraph.Filter
import CodeGraph.Incoming
import CodeGraph.TextTable

/-!
# Graphs

A graph owns its nodes, its texts and its filter, remembers which value-like nodes stand for which
values, and may keep an index of incoming edges up to date. A new graph holds three nodes: the
root package, the file system, and the component of the system itself. An operation that can fail
returns its result or its error beside the graph that it leaves, so that what it did before a failure
is not lost.
-/

set_option autoImplicit false

namespace CodeGraph

/-- What a value-like node stands for. A graph looks such nodes up before it creates new ones. -/
inductive SingletonKey
  | simpleType (kind : SimpleTypeKind)
  | pointer (kind : PointerKind)
  | array
  | nonType
  | typeReference (refersTo : Option NodeId)
  | type (formers : TextKey)
  | attributeAccess (accessed : NodeId)
  | methodCall (method : NodeId)
  | comment (text : TextKey)
  | component (name : TextKey)
deriving DecidableEq, Repr

/-- A graph with everything derived from it. -/
structure Graph where
  nodes : NodeTable
  /-- The texts that names, comments and values refer to. -/
  texts : TextTable
  filter : Filter
  filterOn : Bool
  /-- The index of incoming edges, once it has been asked for. -/
  index : Option IncomingIndex
  language : Language
  root : NodeId
  /-- The node below which files and folders live. -/
  fileSystem : NodeId
  /-- The component of the system itself. -/
  systemComponent : NodeId
  /-- The value-like nodes and what they stand for. -/
  singletons : List (SingletonKey × NodeId)
deriving DecidableEq, Repr

namespace Graph

/-- The id of the root package of a new graph. -/
def rootId : NodeId :=
  ⟨100, by decide⟩

/-- The id of the file system of a new graph. -/
def fileSystemId : NodeId :=
  ⟨101, by decide⟩

/-- The id of the system component of a new graph. -/
def systemComponentId : NodeId :=
  ⟨102, by decide⟩

/-- The smallest id that can name a node. -/
def firstId : NodeId :=
  ⟨2, by decide⟩

/-- The name of the root package of a new graph. -/
def rootName : String :=
  "global namespace"

/-- The name of the file system of a new graph. -/
def fileSystemName : String :=
  "FileSystem"

/-- The name of the system component of a new graph. -/
def systemComponentName : String :=
  "<System>"

def empty (language : Language) (filterOn : Bool) : Graph where
  nodes := .empty
  texts := .empty
  filter := .empty
  filterOn := filterOn
  index := none
  language := language
  root := rootId
  fileSystem := fileSystemId
  systemComponent := systemComponentId
  singletons := []

/-- Removes every node and text; the language and the filter switch stay. -/
def clear (g : Graph) : Graph :=
  empty g.language g.filterOn

/-- One more than the largest id that was ever used. -/
def size (g : Graph) : Nat :=
  g.nodes.size

/-- The node with an id, if there is one. -/
def find? (g : Graph) (id : NodeId) : Option Node :=
  g.nodes.find? id

/-- The node with an id; `site` is named in the error if there is none. -/
def node (g : Graph) (site : Site) (id : NodeId) : Except Error Node :=
  match g.find? id with
  | some n => .ok n
  | none => .error (.noSuchNode site id.raw)

/-- The nodes in the order of their ids. -/
def nodeList (g : Graph) : List Node :=
  g.nodes.toList

/-- The graph with the node at an id changed. -/
def updateNode (g : Graph) (id : NodeId) (f : Node → Node) : Graph :=
  { g with nodes := g.nodes.update id f }

/-- Changes the node with an id; `site` is named in the error if there is none. -/
def editNode (g : Graph) (site : Site) (id : NodeId) (f : Node → Node) : Except Error Unit × Graph :=
  match g.find? id with
  | none => (.error (.noSuchNode site id.raw), g)
  | some _ => (.ok (), g.updateNode id f)

/-- The key of a text, and the graph that has the text. -/
def intern (g : Graph) (s : String) : TextKey × Graph :=
  let interned := g.texts.intern s
  (interned.1, { g with texts := interned.2 })

/-- The graph with a fresh node at an id. The filter is made to cover the nodes again. -/
def insertNode (g : Graph) (kind : NodeKind) (id : NodeId) : Graph :=
  let nodes := g.nodes.insert id (.fresh id kind)
  { g with
    nodes
    filter := (g.filter.resize nodes.size).set id .notFiltered
    index := g.index.map fun x => x.insertNode id }

/-- The id of the next new node. -/
def nextId (g : Graph) : NodeId :=
  match NodeId.ofIndex? g.size with
  | some id => if id.isValid then id else firstId
  | none => firstId

/-- A new node of a kind, changed by `f` before anyone sees it. -/
def newNodeWith (g : Graph) (kind : NodeKind) (f : Node → Node) : NodeId × Graph :=
  (g.nextId, (g.insertNode kind g.nextId).updateNode g.nextId f)

def newNode (g : Graph) (kind : NodeKind) : NodeId × Graph :=
  (g.nextId, g.insertNode kind g.nextId)

/-- The kinds whose nodes need no value to tell them apart. -/
def creatableKinds : List NodeKind :=
  [.controlFlowBlock, .attribute, .plainClass, .classGeneric, .classGenericInstance,
    .classGenericSpec, .genericParameter, .method, .methodGeneric, .methodGenericInstance,
    .methodGenericSpec, .package, .parameter, .file, .folder]

/-- A new node of one of the kinds that need no value. -/
def createNode (g : Graph) (kind : NodeKind) : Except Error NodeId × Graph :=
  if creatableKinds.contains kind then
    let (id, g) := g.newNode kind
    (.ok id, g)
  else
    (.error (.wrongKind .createNode kind), g)

/-- A new node of any concrete kind at an id that is valid and unused. -/
def createNodeWithId (g : Graph) (kind : NodeKind) (id : NodeId) : Except Error NodeId × Graph :=
  if kind.isAbstract then (.error (.wrongKind .createNodeWithId kind), g)
  else if !id.isValid then (.error (.noSuchNode .createNodeWithId id.raw), g)
  else if g.nodes.contains id then (.error (.refused .createNodeWithId (.nodeExists id)), g)
  else (.ok id, g.insertNode kind id)

/-- The kind into which nodes of a kind can be turned. -/
def widened? : NodeKind → Option NodeKind
  | .plainClass => some .classGeneric
  | .method => some .methodGeneric
  | _ => none

/-- Turns a class or a method into its generic form; all else about the node stays. -/
def replaceNode (g : Graph) (id : NodeId) (kind : NodeKind) : Except Error Unit × Graph :=
  match g.find? id with
  | none => (.error (.noSuchNode .replaceNode id.raw), g)
  | some n =>
    if widened? n.kind = some kind then (.ok (), g.updateNode id fun n => n.promote kind)
    else (.error (.wrongKind .replaceNode kind), g)

/-- The name of a node; nodes that are not named have the empty one. -/
def getName (g : Graph) (id : NodeId) : Except Error String :=
  match g.find? id with
  | none => .error (.noSuchNode .getName id.raw)
  | some n => g.texts.get n.name

/-- Names a node of a kind that has names. The node is looked up again when the name has its key. -/
def setName (g : Graph) (id : NodeId) (name : String) : Except Error Unit × Graph :=
  match g.find? id with
  | none => (.error (.noSuchNode .setName id.raw), g)
  | some n =>
    if n.isNamed then
      let (key, g) := g.intern name
      g.editNode .setName id fun n => n.setName key
    else
      (.error (.wrongKind .setName n.kind), g)

/-- The node that stands for a value, if the graph knows one. -/
def singleton? (g : Graph) (key : SingletonKey) : Option NodeId :=
  SortedMap.lookup key g.singletons

/-- Records that a node stands for a value; a record that exists stays. -/
def remember (g : Graph) (key : SingletonKey) (id : NodeId) : Graph :=
  match g.singleton? key with
  | some _ => g
  | none => { g with singletons := (key, id) :: g.singletons }

/-- A new graph: the root package, the file system and the system component, all named. -/
def new (language : Language) : Graph :=
  let (rootKey, g) := (empty language true).intern rootName
  let g := (g.insertNode .package rootId).updateNode rootId fun n => n.setName rootKey
  let (fileSystemKey, g) := g.intern fileSystemName
  let g := (g.insertNode .fileSystem fileSystemId).updateNode fileSystemId fun n =>
    n.setName fileSystemKey
  let (systemKey, g) := g.intern systemComponentName
  let g := (g.insertNode .component systemComponentId).updateNode systemComponentId fun n =>
    n.setName systemKey
  g.remember (.component systemKey) systemComponentId

end Graph

end CodeGraph
