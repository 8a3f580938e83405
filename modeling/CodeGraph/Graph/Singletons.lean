import CodeGraph.Graph.Edges

/-!
# Value-like nodes

Simple types, type formers, accesses, calls, comments and components stand for a value. Asking for
the node of a value gives the one that the graph remembers, or a new one. A composite type is the
list of its formers, outermost last on the stack from which it is built; building the same stack
twice gives the same node.
-/

set_option autoImplicit false

namespace CodeGraph

namespace Graph

/-- The node for a value: the remembered one, or a new one of the given kind. -/
def singletonNode (g : Graph) (key : SingletonKey) (kind : NodeKind) (f : Node → Node) :
    NodeId × Graph :=
  match g.singleton? key with
  | some id => (id, g)
  | none =>
    let (id, created) := g.newNodeWith kind f
    (id, created.remember key id)

def simpleType (g : Graph) (kind : SimpleTypeKind) : NodeId × Graph :=
  g.singletonNode (.simpleType kind) .simpleType fun n =>
    { n with attributes := .simpleType kind }

def pointerFormer (g : Graph) (kind : PointerKind) : NodeId × Graph :=
  g.singletonNode (.pointer kind) .typeFormerPointer fun n => { n with attributes := .pointer kind }

def arrayFormer (g : Graph) : NodeId × Graph :=
  g.singletonNode .array .typeFormerArray fun n => n

/-- The former of arguments that are no types. -/
def nonTypeFormer (g : Graph) : NodeId × Graph :=
  g.singletonNode .nonType .typeFormerNonType fun n => n

def comment (g : Graph) (text : String) : NodeId × Graph :=
  let (key, g) := g.intern text
  g.singletonNode (.comment key) .comment fun n => { n with attributes := .comment key }

def component (g : Graph) (name : String) : NodeId × Graph :=
  let (key, g) := g.intern name
  g.singletonNode (.component key) .component fun n => n.setName key

/-- A new node of a kind with its one edge set. The node stays if the edge is refused. -/
def newNodeTo (g : Graph) (kind : NodeKind) (e : EdgeKind) (target : Option NodeId) :
    Except Error NodeId × Graph :=
  let (id, created) := g.newNode kind
  match created.setEdge e id target with
  | (.error cause, g) => (.error cause, g)
  | (.ok (), g) => (.ok id, g)

/-- The node for a value that is another node: the remembered one, or a new one that points to
it. -/
def referenceNode (g : Graph) (key : SingletonKey) (kind : NodeKind) (e : EdgeKind)
    (target : Option NodeId) (check : Except Error Unit) : Except Error NodeId × Graph :=
  match g.singleton? key with
  | some id => (.ok id, g)
  | none =>
    match check with
    | .error cause => (.error cause, g)
    | .ok () =>
      match g.newNodeTo kind e target with
      | (.error cause, g) => (.error cause, g)
      | (.ok id, g) => (.ok id, g.remember key id)

/-- The former that refers to a node, or to none. -/
def typeReference (g : Graph) (refersTo : Option NodeId) : Except Error NodeId × Graph :=
  g.referenceNode (.typeReference refersTo) .typeFormerType .typeFormerTypeRefersTo refersTo <|
    match refersTo with
    | none => .ok ()
    | some target => (g.node .typeReference target).map fun _ => ()

def attributeAccess (g : Graph) (accessed : NodeId) : Except Error NodeId × Graph :=
  g.referenceNode (.attributeAccess accessed) .attributeAccess .attributeAccessAttribute
    (some accessed) (g.checkTarget .attributeAccess .attributeAccessAttribute accessed)

def methodCall (g : Graph) (method : NodeId) : Except Error NodeId × Graph :=
  g.referenceNode (.methodCall method) .methodCall .methodCallMethod (some method)
    (g.checkTarget .methodCall .methodCallMethod method)

/-- A new friendship; friendships are not shared. -/
def friendship (g : Graph) (grantee : String) : NodeId × Graph :=
  let (key, g) := g.intern grantee
  g.newNodeWith .friendship fun n => { n with attributes := .friendship key }

/-- A new method former; method formers are not shared. -/
def methodFormer (g : Graph) : NodeId × Graph :=
  g.newNode .typeFormerMethod

/-- The text under which the type with the given formers is remembered. -/
def typeText (formers : List NodeId) : String :=
  "[" ++ ",".intercalate (formers.map NodeId.toString) ++ "]"

/-- Whether every id of a list is a type former. -/
def checkFormers (g : Graph) : List NodeId → Except Error Unit
  | [] => .ok ()
  | former :: formers =>
    match g.find? former with
    | none => .error (.noSuchNode .endType former.raw)
    | some n =>
      if n.is .typeFormer then g.checkFormers formers else .error (.wrongKind .endType n.kind)

/-- Adds edges of one kind from one node to several; edges added before a failure stay. -/
def addEdges (g : Graph) (e : EdgeKind) (source : NodeId) :
    List NodeId → Except Error Unit × Graph
  | [] => (.ok (), g)
  | target :: targets =>
    match g.addEdge e source target with
    | (.error cause, g) => (.error cause, g)
    | (.ok (), g) => g.addEdges e source targets

/-- The type built from a stack of formers, the last one pushed being the outermost. -/
def buildType (g : Graph) (stack : List NodeId) : Except Error NodeId × Graph :=
  if stack.isEmpty then (.error (.emptyStack .endType), g)
  else
    match g.checkFormers stack with
    | .error cause => (.error cause, g)
    | .ok () =>
      let formers := stack.reverse
      let (key, g) := g.intern (typeText formers)
      match g.singleton? (.type key) with
      | some id => (.ok id, g)
      | none =>
        let (id, g) := g.newNode .type
        match g.addEdges .typeHasTypeFormer id formers with
        | (.error cause, g) => (.error cause, g)
        | (.ok (), g) => (.ok id, g.remember (.type key) id)

end Graph

end CodeGraph
