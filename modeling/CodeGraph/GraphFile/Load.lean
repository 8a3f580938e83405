import CodeGraph.GraphFile.Records
import CodeGraph.Graph.Singletons
import CodeGraph.Node.Payload

/-!
# Loading a graph

Loading replaces a graph by the one in a file. Bytes that do not start like a graph file, and
files whose properties are not accepted, leave the graph as it was. From then on the graph is
cleared and filled node by node, and what a failure leaves is what was read before it. When all
nodes and texts are there, the parents, the nodes that stand for values, and the file system and
system component are found again.
-/

set_option autoImplicit false

namespace CodeGraph

namespace GraphFile

def acceptedLanguage (properties : Option Properties) : Except Error Language :=
  match properties with
  | none => .error (.refused .loadGraph .missingProperties)
  | some p =>
    if p.problems.isEmpty then
      match p.language? with
      | some language => .ok language
      | none => .error (.refused .loadGraph .wrongLanguage)
    else
      .error (.refused .loadGraph (.wrongProperties p.problems))

/-- The kind of a stored node, which may not be abstract. -/
def nodeKind (code : UInt16) : Except Error NodeKind :=
  match Enumerated.ofCode? code.toNat with
  | some kind =>
    if NodeKind.isAbstract kind then .error (.refused .loadGraph (.nodeKindCode code)) else .ok kind
  | none => .error (.refused .loadGraph (.nodeKindCode code))

/-- The id of a stored node, which has to be valid. -/
def nodeId (raw : UInt32) : Except Error NodeId :=
  match NodeId.ofRaw? raw with
  | some id => if id.isValid then .ok id else .error (.noSuchNode .loadGraph raw)
  | none => .error (.noSuchNode .loadGraph raw)

/-- Makes the node that a stored id and kind tell of. -/
def openNode (g : Graph) (raw : UInt32) (code : UInt16) : Except Error NodeId × Graph :=
  match nodeKind code with
  | .error e => (.error e, g)
  | .ok kind =>
    match nodeId raw with
    | .error e => (.error e, g)
    | .ok id => g.createNodeWithId kind id

/-- What reading the nodes has found so far. -/
structure NodeScan where
  graph : Graph
  first : Option NodeId := none

/-- Reads the rest of a node whose id and kind are known. -/
def loadNode (scan : NodeScan) (raw : UInt32) (code : UInt16) (input : Bytes) : Loaded NodeScan :=
  match openNode scan.graph raw code with
  | (.error e, g) => ({ scan with graph := g }, .error e)
  | (.ok id, g) =>
    match g.find? id with
    | none => ({ scan with graph := g }, .error (.noSuchNode .loadGraph id.raw))
    | some fresh =>
      let loaded := fresh.load input
      (⟨g.updateNode id fun _ => loaded.1, scan.first.or (some id)⟩, loaded.2)

/-- Takes the id and the kind of the next node. -/
def readTag : Reader (UInt32 × UInt16) :=
  (Codec.pair .u32 .u16).decode

/-- Reads nodes until the mark that ends them. Every node takes bytes, so `rounds` is enough if it
exceeds their number. -/
def loadNodeRounds : (rounds : Nat) → NodeScan → Bytes → Loaded NodeScan
  | 0, scan, _ => (scan, .error (.transfer .endOfData))
  | rounds + 1, scan, input =>
    match readTag input with
    | .error e => (scan, .error e)
    | .ok ((raw, code), rest) =>
      if raw = 0 ∧ code = 0 then (scan, .ok rest)
      else
        match loadNode scan raw code rest with
        | (scan, .error e) => (scan, .error e)
        | (scan, .ok rest) => loadNodeRounds rounds scan rest

def loadNodes (g : Graph) (input : Bytes) : Loaded NodeScan :=
  loadNodeRounds (input.length + 1) { graph := g } input

/-- The nodes below others, and the parents that their containment edges give them. -/
def parentage (g : Graph) : List (NodeId × Parent) :=
  g.nodeList.flatMap fun n =>
    (n.edges.filter fun e => e.kind.isContainment).map fun e => (e.target, ⟨e.source, e.kind⟩)

/-- Gives every contained node its parent; the last of several containment edges counts. -/
def linkParents (g : Graph) : Graph :=
  (parentage g).foldl
    (fun g link => g.updateNode link.1 fun n => { n with parent := some link.2 }) g

/-- What a node stands for, types apart. -/
def singletonKey? (n : Node) : Option SingletonKey :=
  match n.attributes, n.kind with
  | .simpleType kind, _ => some (.simpleType kind)
  | .pointer kind, _ => some (.pointer kind)
  | .comment text, _ => some (.comment text)
  | _, .typeFormerArray => some .array
  | _, .typeFormerNonType => some .nonType
  | _, .typeFormerType => some (.typeReference (n.single? .typeFormerTypeRefersTo))
  | _, .attributeAccess => (n.single? .attributeAccessAttribute).map .attributeAccess
  | _, .methodCall => (n.single? .methodCallMethod).map .methodCall
  | _, .component => some (.component n.name)
  | _, _ => none

def rememberNode (g : Graph) (n : Node) : Graph :=
  match singletonKey? n with
  | some key => g.remember key n.id
  | none => g

/-- Remembers a type under the text of its formers. -/
def rememberType (g : Graph) (n : Node) : Graph :=
  if n.kind = .type then
    let (key, g) := g.intern (Graph.typeText ((n.targets .typeHasTypeFormer).map Target.id))
    g.remember (.type key) n.id
  else
    g

/-- Finds again which nodes stand for which values; of several the first counts. -/
def linkSingletons (g : Graph) : Graph :=
  let nodes := g.nodeList
  nodes.foldl rememberType (nodes.foldl rememberNode { g with singletons := [] })

/-- The first node of the kind of file systems. -/
def findFileSystem (g : Graph) : Option NodeId :=
  (g.nodeList.find? fun n => n.kind = .fileSystem).map Node.id

/-- The first component that has the name of the system component. -/
def findSystemComponent (g : Graph) : Option NodeId :=
  match g.texts.keyOf? Graph.systemComponentName with
  | some key => (g.nodeList.find? fun n => n.kind = .component && n.name = key).map Node.id
  | none => none

/-- Finds again all that follows from the nodes, edges and texts. -/
def link (g : Graph) (first : Option NodeId) : Graph :=
  let parented := linkParents g
  { linkSingletons parented with
    root := first.getD g.root
    fileSystem := (findFileSystem g).getD g.fileSystem
    systemComponent := (findSystemComponent g).getD g.systemComponent }

/-- Fills a graph with the nodes and texts of a file. -/
def loadContent (g : Graph) (input : Bytes) : Except Error Unit × Graph :=
  match loadNodes g input with
  | (scan, .error e) => (.error e, scan.graph)
  | (scan, .ok rest) =>
    match scan.graph.texts.load rest with
    | (texts, .error e) => (.error e, { scan.graph with texts })
    | (texts, .ok _) => (.ok (), link { scan.graph with texts } scan.first)

end GraphFile

/-- Replaces a graph by the one in a file, and reads the header records into the given headers. -/
def Graph.load (g : Graph) (headers : List Header) (input : Bytes) :
    Except Error Unit × List Header × Graph :=
  match Reader.bytes GraphFile.magic.length input with
  | .error e => (.error e, headers, g)
  | .ok (start, rest) =>
    if start = GraphFile.magic then
      match GraphFile.loadHeaders headers rest with
      | (scan, .error e) => (.error e, scan.headers, g)
      | (scan, .ok rest) =>
        match GraphFile.acceptedLanguage scan.properties with
        | .error e => (.error e, scan.headers, g)
        | .ok language =>
          let (result, loaded) := GraphFile.loadContent { g.clear with language } rest
          (result, scan.headers, loaded)
    else
      (.ok (), headers, g)

end CodeGraph
