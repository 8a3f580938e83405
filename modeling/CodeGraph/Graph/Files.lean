import CodeGraph.Graph.Edges

/-!
# Files and folders

A path is a list of names with backslashes between them. All names but the last are folders. A
path that starts with a backslash starts in a folder whose name is that backslash. Asking for a
file walks down the folders, makes what is missing, and ends at the file. The full path of an
entry joins the names from its outermost ancestor down.
-/

set_option autoImplicit false

namespace CodeGraph

/-- Cuts a list at every occurrence of a separator, which is dropped. -/
def cutAt {α : Type} [DecidableEq α] (separator : α) : List α → List (List α)
  | [] => [[]]
  | a :: rest =>
    if a = separator then [] :: cutAt separator rest
    else
      match cutAt separator rest with
      | [] => [[a]]
      | piece :: pieces => (a :: piece) :: pieces

namespace Graph

/-- The name of the folder that a path with a leading backslash starts in. -/
def topFolder : String :=
  "\\"

def pathNames (path : String) : List String :=
  match (cutAt '\\' path.toList).map String.ofList with
  | first :: second :: rest =>
    if first.isEmpty then topFolder :: second :: rest else first :: second :: rest
  | names => names

/-- The edge kind through which a container holds its entries. -/
def entryEdge (container : Node) : EdgeKind :=
  if container.kind = .fileSystem then .fileSystemHasFSEntry else .folderContains

/-- The entry of a kind and a name in a container. -/
def findEntry (g : Graph) (container : Node) (name : String) (kind : NodeKind) :
    Option NodeId :=
  match g.texts.keyOf? name with
  | none => none
  | some key =>
    let entries := (container.targets (entryEdge container)).filterMap fun t => g.find? t.id
    (entries.find? fun entry => entry.kind = kind && entry.name = key).map Node.id

/-- The entry of a kind and a name in a container, made if it is missing. -/
def openEntry (g : Graph) (container : NodeId) (name : String) (kind : NodeKind) :
    Except Error NodeId × Graph :=
  match g.find? container with
  | none => (.error (.noSuchNode .createFile container.raw), g)
  | some holder =>
    match g.findEntry holder name kind with
    | some id => (.ok id, g)
    | none =>
      let (key, g) := g.intern name
      let (id, g) := g.newNodeWith kind fun n => n.setName key
      match g.addEdge (entryEdge holder) container id with
      | (.error cause, g) => (.error cause, g)
      | (.ok (), g) => (.ok id, g)

/-- Walks down the named folders from a container; folders made before a failure stay. -/
def openFolders (g : Graph) (container : NodeId) : List String → Except Error NodeId × Graph
  | [] => (.ok container, g)
  | name :: names =>
    if name.isEmpty then (.error (.emptyFolderName .createFile), g)
    else
      match g.openEntry container name .folder with
      | (.error cause, g) => (.error cause, g)
      | (.ok folder, g) => g.openFolders folder names

/-- The file at a path below a folder or the file system, made if it is missing. -/
def createFileFrom (g : Graph) (path : String) (start : NodeId) : Except Error NodeId × Graph :=
  match g.find? start with
  | none => (.error (.noSuchNode .createFile start.raw), g)
  | some n =>
    if n.kind = .folder || n.kind = .fileSystem then
      let names := pathNames path
      match g.openFolders start names.dropLast with
      | (.error cause, g) => (.error cause, g)
      | (.ok folder, g) =>
        let name := names.getLast?.getD ""
        if name.isEmpty then (.error (.refused .createFile .emptyFileName), g)
        else g.openEntry folder name .file
    else
      (.error (.wrongKind .createFile n.kind), g)

/-- The file at a path below the file system of the graph. -/
def createFile (g : Graph) (path : String) : Except Error NodeId × Graph :=
  g.createFileFrom path g.fileSystem

/-- The names of an entry and its ancestors up to the first node that is no entry, innermost first.
A chain of parents that ends is no longer than the table of nodes. -/
def entryNames (g : Graph) : (steps : Nat) → Option Node → Except Error (List String)
  | 0, _ => .ok []
  | _ + 1, none => .ok []
  | steps + 1, some n =>
    if n.is .fsEntry then
      match g.texts.get n.name with
      | .error cause => .error cause
      | .ok name =>
        match g.entryNames steps (n.parentId?.bind g.find?) with
        | .error cause => .error cause
        | .ok names => .ok (name :: names)
    else
      .ok []

/-- Joins names with a separator; none follows a name that is itself a slash of either kind. -/
def joinNames (separator : String) : List String → String
  | [] => ""
  | [name] => name
  | name :: next :: rest =>
    let gap := if name = "/" || name = "\\" then "" else separator
    name ++ gap ++ joinNames separator (next :: rest)

/-- The path of a file or folder. -/
def fullPath (g : Graph) (id : NodeId) (separator : String) : Except Error String :=
  match g.find? id with
  | none => .error (.noSuchNode .fullPath id.raw)
  | some n =>
    if n.is .fsEntry then
      (g.entryNames (g.size + 1) (some n)).map fun names => joinNames separator names.reverse
    else
      .error (.wrongKind .fullPath n.kind)

end Graph

end CodeGraph
