import CodeGraph.Binary.InPlace
import CodeGraph.Node.Basic

/-!
# Payloads

The payload of a node is what is stored of it besides id and kind: the name if it has one, the
attributes layer by layer, and the edges slot by slot. A slot for one edge holds one id, which is
zero if there is no edge; any other slot holds a list that ends with the id zero. A payload is
read into a fresh node of the same kind; if it breaks off, the node keeps what was read. What is
written and what is read is spelled out field by field, once for each direction.
-/

set_option autoImplicit false

namespace CodeGraph

/-- Truth values in the low bits of a byte, the first one in the highest of them. -/
def packFlags (flags : List Bool) : UInt8 :=
  flags.foldl (fun packed flag => packed <<< 1 ||| flag.toUInt8) 0

/-- The bytes of the layer of members. -/
def MemberAttributes.save (a : MemberAttributes) : Bytes :=
  Codec.u8.encode (packFlags [a.isCompilerGenerated, a.isStatic]) ++
    (Codec.enumerated Accessibility).encode a.accessibility ++
    Codec.u32.encode a.commentLines ++
    Codec.textKey.encode a.demangledName ++
    (Codec.enumerated Language).encode a.language ++
    Codec.textKey.encode a.mangledName

/-- Reads the layer of members in place. -/
def MemberAttributes.load (a : MemberAttributes) (input : Bytes) : Loaded MemberAttributes :=
  Loaded.start a input
    |>.field Codec.u8.decode (fun flags a =>
      { a with isCompilerGenerated := flags &&& 2 != 0, isStatic := flags &&& 1 != 0 })
    |>.field (Codec.enumerated Accessibility).decode (fun v a => { a with accessibility := v })
    |>.field Codec.u32.decode (fun v a => { a with commentLines := v })
    |>.field Codec.textKey.decode (fun v a => { a with demangledName := v })
    |>.field (Codec.enumerated Language).decode (fun v a => { a with language := v })
    |>.field Codec.textKey.decode (fun v a => { a with mangledName := v })

/-- The bytes of the layer of scopes. -/
def ScopeAttributes.save (a : ScopeAttributes) : Bytes :=
  Codec.u32.encode a.lloc ++
    Codec.u32.encode a.loc ++
    Codec.u32.encode a.tlloc ++
    Codec.u32.encode a.tloc ++
    Codec.bool.encode a.isAnonymous

/-- Reads the layer of scopes in place. -/
def ScopeAttributes.load (a : ScopeAttributes) (input : Bytes) : Loaded ScopeAttributes :=
  Loaded.start a input
    |>.field Codec.u32.decode (fun v a => { a with lloc := v })
    |>.field Codec.u32.decode (fun v a => { a with loc := v })
    |>.field Codec.u32.decode (fun v a => { a with tlloc := v })
    |>.field Codec.u32.decode (fun v a => { a with tloc := v })
    |>.field Codec.bool.decode (fun v a => { a with isAnonymous := v })

/-- The bytes of the layer of classes. -/
def ClassAttributes.save (a : ClassAttributes) : Bytes :=
  Codec.u8.encode (packFlags [a.isAbstract]) ++
    (Codec.enumerated ClassKind).encode a.classKind ++
    Codec.u32.encode a.objectSize

/-- Reads the layer of classes in place. -/
def ClassAttributes.load (a : ClassAttributes) (input : Bytes) : Loaded ClassAttributes :=
  Loaded.start a input
    |>.field Codec.u8.decode (fun flags a =>
      { a with isAbstract := flags &&& 1 != 0 })
    |>.field (Codec.enumerated ClassKind).decode (fun v a => { a with classKind := v })
    |>.field Codec.u32.decode (fun v a => { a with objectSize := v })

/-- The bytes of the layer of methods. -/
def MethodAttributes.save (a : MethodAttributes) : Bytes :=
  Codec.u8.encode (packFlags [a.isAbstract, a.isVirtual]) ++
    (Codec.enumerated MethodKind).encode a.methodKind ++
    Codec.u32.encode a.nestingLevel ++
    Codec.u32.encode a.nestingLevelElseIf ++
    Codec.u32.encode a.numberOfBranches ++
    Codec.u32.encode a.numberOfStatements ++
    Codec.u32.encode a.distinctOperands ++
    Codec.u32.encode a.distinctOperators ++
    Codec.u32.encode a.totalOperands ++
    Codec.u32.encode a.totalOperators

/-- Reads the layer of methods in place. -/
def MethodAttributes.load (a : MethodAttributes) (input : Bytes) : Loaded MethodAttributes :=
  Loaded.start a input
    |>.field Codec.u8.decode (fun flags a =>
      { a with isAbstract := flags &&& 2 != 0, isVirtual := flags &&& 1 != 0 })
    |>.field (Codec.enumerated MethodKind).decode (fun v a => { a with methodKind := v })
    |>.field Codec.u32.decode (fun v a => { a with nestingLevel := v })
    |>.field Codec.u32.decode (fun v a => { a with nestingLevelElseIf := v })
    |>.field Codec.u32.decode (fun v a => { a with numberOfBranches := v })
    |>.field Codec.u32.decode (fun v a => { a with numberOfStatements := v })
    |>.field Codec.u32.decode (fun v a => { a with distinctOperands := v })
    |>.field Codec.u32.decode (fun v a => { a with distinctOperators := v })
    |>.field Codec.u32.decode (fun v a => { a with totalOperands := v })
    |>.field Codec.u32.decode (fun v a => { a with totalOperators := v })

/-- The bytes of the layer of components. -/
def ComponentAttributes.save (a : ComponentAttributes) : Bytes :=
  Codec.u32.encode a.tlloc ++
    Codec.u32.encode a.tloc ++
    (Codec.enumerated AnalysisTime).encode a.analysisTime ++
    Codec.textKey.encode a.changesetId ++
    Codec.textKey.encode a.shortName

/-- Reads the layer of components in place. -/
def ComponentAttributes.load (a : ComponentAttributes) (input : Bytes) : Loaded ComponentAttributes :=
  Loaded.start a input
    |>.field Codec.u32.decode (fun v a => { a with tlloc := v })
    |>.field Codec.u32.decode (fun v a => { a with tloc := v })
    |>.field (Codec.enumerated AnalysisTime).decode (fun v a => { a with analysisTime := v })
    |>.field Codec.textKey.decode (fun v a => { a with changesetId := v })
    |>.field Codec.textKey.decode (fun v a => { a with shortName := v })

/-- The bytes of the layer of files. -/
def FileAttributes.save (a : FileAttributes) : Bytes :=
  Codec.u32.encode a.cloc ++
    Codec.u32.encode a.lloc ++
    Codec.u32.encode a.loc ++
    Codec.u32.encode a.numberOfBranches

/-- Reads the layer of files in place. -/
def FileAttributes.load (a : FileAttributes) (input : Bytes) : Loaded FileAttributes :=
  Loaded.start a input
    |>.field Codec.u32.decode (fun v a => { a with cloc := v })
    |>.field Codec.u32.decode (fun v a => { a with lloc := v })
    |>.field Codec.u32.decode (fun v a => { a with loc := v })
    |>.field Codec.u32.decode (fun v a => { a with numberOfBranches := v })

namespace Attributes

/-- The bytes of attributes, layer by layer. -/
def save : Attributes → Bytes
  | .empty => []
  | .comment text => Codec.textKey.encode text
  | .component own => own.save
  | .friendship grantee => Codec.textKey.encode grantee
  | .genericParameter kind => (Codec.enumerated GenericParameterKind).encode kind
  | .parameter kind => (Codec.enumerated ParameterKind).encode kind
  | .file own => own.save
  | .attribute member => member.save
  | .classes m s own => m.save ++ s.save ++ own.save
  | .method m s own => m.save ++ s.save ++ own.save
  | .package m s kind => m.save ++ s.save ++ (Codec.enumerated PackageKind).encode kind
  | .simpleType kind => (Codec.enumerated SimpleTypeKind).encode kind
  | .pointer kind => (Codec.enumerated PointerKind).encode kind

/-- Reads a single value in place. -/
def loadValue {α : Type} (take : Reader α) : α → Bytes → Loaded α :=
  InPlace.loadOne take fun v _ => v

/-- Reads a member layer, a scope layer and a third layer in place. -/
def loadScoped {α : Type} (loadOwn : α → Bytes → Loaded α) (m : MemberAttributes)
    (s : ScopeAttributes) (own : α) (input : Bytes) : Loaded (MemberAttributes × ScopeAttributes × α) :=
  Loaded.start (m, s, own) input
    |>.part MemberAttributes.load (·.1) (fun v a => (v, a.2.1, a.2.2))
    |>.part ScopeAttributes.load (·.2.1) (fun v a => (a.1, v, a.2.2))
    |>.part loadOwn (·.2.2) (fun v a => (a.1, a.2.1, v))

/-- Puts layers that were read back into attributes. -/
def rebuild {α : Type} (make : α → Attributes) (loaded : Loaded α) : Loaded Attributes :=
  (make loaded.1, loaded.2)

/-- Reads attributes of the same form in place, field by field. -/
def load (a : Attributes) (input : Bytes) : Loaded Attributes :=
  match a with
  | .empty => (.empty, .ok input)
  | .comment text => rebuild .comment (loadValue Codec.textKey.decode text input)
  | .component own => rebuild .component (own.load input)
  | .friendship grantee => rebuild .friendship (loadValue Codec.textKey.decode grantee input)
  | .genericParameter kind =>
    rebuild .genericParameter (loadValue (Codec.enumerated GenericParameterKind).decode kind input)
  | .parameter kind =>
    rebuild .parameter (loadValue (Codec.enumerated ParameterKind).decode kind input)
  | .file own => rebuild .file (own.load input)
  | .attribute member => rebuild .attribute (member.load input)
  | .classes m s own =>
    rebuild (fun v => .classes v.1 v.2.1 v.2.2) (loadScoped ClassAttributes.load m s own input)
  | .method m s own =>
    rebuild (fun v => .method v.1 v.2.1 v.2.2) (loadScoped MethodAttributes.load m s own input)
  | .package m s kind =>
    rebuild (fun v => .package v.1 v.2.1 v.2.2)
      (loadScoped (loadValue (Codec.enumerated PackageKind).decode) m s kind input)
  | .simpleType kind =>
    rebuild .simpleType (loadValue (Codec.enumerated SimpleTypeKind).decode kind input)
  | .pointer kind =>
    rebuild .pointer (loadValue (Codec.enumerated PointerKind).decode kind input)

end Attributes

namespace SourcePosition

/-- The bytes of a place in a file. -/
def save (p : SourcePosition) : Bytes :=
  (Codec.enumerated Realization).encode p.realization ++
    Codec.u32.encode p.line ++
    Codec.u32.encode p.column ++
    Codec.u32.encode p.endLine ++
    Codec.u32.encode p.endColumn

/-- Takes a place in a file. -/
def read : Reader SourcePosition := do
  let realization ← (Codec.enumerated Realization).decode
  let line ← Codec.u32.decode
  let column ← Codec.u32.decode
  let endLine ← Codec.u32.decode
  let endColumn ← Codec.u32.decode
  pure { realization, line, column, endLine, endColumn }

end SourcePosition

/-- The bytes of a value that an edge carries; what an edge does not carry takes no bytes. -/
def EdgeValue.save : Option EdgeValue → Bytes
  | none => []
  | some (.text key) => Codec.textKey.encode key
  | some (.position p) => p.save
  | some (.bound kind) => (Codec.enumerated TypeArgumentBound).encode kind
  | some (.parameter kind) => (Codec.enumerated ParameterKind).encode kind

/-- Takes a value of the kind that an edge carries. -/
def ValueKind.read : ValueKind → Reader (Option EdgeValue)
  | .nothing => pure none
  | .text => (fun v => some (.text v)) <$> Codec.textKey.decode
  | .position => (fun v => some (.position v)) <$> SourcePosition.read
  | .bound => (fun v => some (.bound v)) <$> (Codec.enumerated TypeArgumentBound).decode
  | .parameter => (fun v => some (.parameter v)) <$> (Codec.enumerated ParameterKind).decode

namespace Slot

def save (s : Slot) : Bytes :=
  if s.kind.isSingle then
    Codec.nodeId.encode (s.targets.head?.map Target.id)
  else
    s.targets.flatMap (fun t => Codec.nodeId.encode (some t.id) ++ EdgeValue.save t.value) ++
      Codec.nodeId.encode none

/-- Takes the far end of one edge, or the id zero that ends the list. -/
def readTarget (carries : ValueKind) : Reader (Option Target) := do
  match ← Codec.nodeId.decode with
  | none => pure none
  | some id =>
    let value ← carries.read
    pure (some ⟨id, value⟩)

/-- The slot with one more edge at the end. -/
def push (t : Target) (s : Slot) : Slot :=
  { s with targets := s.targets ++ [t] }

/-- Reads the edges of a slot after those that it holds. -/
def load (s : Slot) (input : Bytes) : Loaded Slot :=
  if s.kind.isSingle then
    match Codec.nodeId.decode input with
    | .error e => (s, .error e)
    | .ok (none, rest) => (s, .ok rest)
    | .ok (some id, rest) => (s.push { id }, .ok rest)
  else
    InPlace.loadList (readTarget s.kind.carries) push s input

/-- Reads several slots in place, up to the first failure. -/
def loadAll : List Slot → Bytes → Loaded (List Slot)
  | [], input => ([], .ok input)
  | s :: rest, input =>
    match s.load input with
    | (s', .ok left) =>
      let others := loadAll rest left
      (s' :: others.1, others.2)
    | (s', .error e) => (s' :: rest, .error e)

end Slot

namespace Node

/-- The bytes of the name, which only named nodes store. -/
def saveName (n : Node) : Bytes :=
  if n.isNamed then Codec.textKey.encode n.name else []

/-- Reads the name in place, if the node is named. -/
def loadName (n : Node) (input : Bytes) : Loaded TextKey :=
  if n.isNamed then Attributes.loadValue Codec.textKey.decode n.name input
  else (n.name, .ok input)

def save (n : Node) : Bytes :=
  n.saveName ++ n.attributes.save ++ n.slots.flatMap Slot.save

/-- The bytes of a node in a graph file: its id, the code of its kind, and its payload. -/
def record (n : Node) : Bytes :=
  Codec.u32.encode n.id.raw ++ wordBytes 2 (Enumerated.code n.kind) ++ n.save

/-- Reads a payload in place; a failure keeps what was read before it. -/
def load (n : Node) (input : Bytes) : Loaded Node :=
  match n.loadName input with
  | (name, .error e) => ({ n with name }, .error e)
  | (name, .ok afterName) =>
    match n.attributes.load afterName with
    | (attributes, .error e) => ({ n with name, attributes }, .error e)
    | (attributes, .ok afterAttributes) =>
      let slots := Slot.loadAll n.slots afterAttributes
      ({ n with name, attributes, slots := slots.1 }, slots.2)

end Node

end CodeGraph
