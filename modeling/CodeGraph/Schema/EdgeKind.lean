import CodeGraph.Schema.NodeKind

/-!
# Edge kinds

The kinds of edge. A description says which nodes an edge may start at and point to, what value it
carries, whether it makes its source the parent of its target, and whether a node has at most one
such edge. All storage, writing and walking is driven by these descriptions.
-/

set_option autoImplicit false

namespace CodeGraph

/-- The kind of value that every edge of some kind carries beside its target. -/
inductive ValueKind
  | nothing
  | text
  | position
  | bound
  | parameter
deriving DecidableEq, Repr

/-- The name of a kind of value. -/
def ValueKind.name : ValueKind → String
  | .nothing => "None"
  | .text => "String"
  | .position => "SourcePosition"
  | .bound => "TypeArgumentConstraint"
  | .parameter => "Parameter"

/-- The kind of an edge; the order of declaration is the order of the binary codes. -/
inductive EdgeKind
  | componentContains
  | componentHasFiles
  | controlFlowBlockCalls
  | controlFlowBlockPred
  | namedDependsOn
  | attributeCalls
  | attributeHasType
  | attributeAccessAttribute
  | classGrantsFriendship
  | classIsSubclass
  | classGenericHasGenericParameter
  | classGenericInstanceHasArguments
  | classGenericSpecHasArguments
  | classGenericSpecSpecialize
  | friendshipFriend
  | genericParameterHasParameterConstraint
  | memberAggregated
  | memberBelongsTo
  | memberCompilationUnit
  | memberDeclares
  | memberHasComment
  | memberInstance
  | memberIsContainedIn
  | memberLanguageVariant
  | memberUses
  | memberVariant
  | methodAccessesAttribute
  | methodCalls
  | methodCanThrow
  | methodHasControlFlowBlock
  | methodHasParameter
  | methodInstantiates
  | methodReturns
  | methodThrows
  | methodCallMethod
  | methodGenericHasGenericParameter
  | methodGenericInstanceHasArguments
  | methodGenericSpecHasArguments
  | methodGenericSpecSpecialize
  | parameterHasType
  | scopeHasMember
  | fileHasComment
  | fileIncludes
  | fileSystemHasFSEntry
  | folderContains
  | typeHasTypeFormer
  | typeFormerMethodHasParameterType
  | typeFormerMethodHasReturnType
  | typeFormerTypeRefersTo
deriving DecidableEq, Repr

/-- What edges of one kind may connect and carry. -/
structure EdgeDescription where
  name : String
  /-- Edges start at nodes of this kind. -/
  source : NodeKind
  /-- Edges point to nodes of this kind. -/
  target : NodeKind
  /-- The kind of value each edge carries. -/
  carries : ValueKind := .nothing
  /-- Whether the source of an edge becomes the parent of its target. -/
  containment : Bool := false
  /-- Whether a node has at most one edge of the kind. -/
  single : Bool := false
deriving DecidableEq, Repr

namespace EdgeKind

def describe : EdgeKind → EdgeDescription
  | .componentContains => {
      name := "Component_Contains", source := .component, target := .component }
  | .componentHasFiles => { name := "Component_HasFiles", source := .component, target := .file }
  | .controlFlowBlockCalls => {
      name := "ControlFlowBlock_Calls", source := .controlFlowBlock, target := .method }
  | .controlFlowBlockPred => {
      name := "ControlFlowBlock_Pred", source := .controlFlowBlock, target := .controlFlowBlock }
  | .namedDependsOn => {
      name := "Named_DependsOn", source := .named, target := .named, carries := .text }
  | .attributeCalls => { name := "Attribute_Calls", source := .attribute, target := .methodCall }
  | .attributeHasType => { name := "Attribute_HasType", source := .attribute, target := .type }
  | .attributeAccessAttribute => {
      name := "AttributeAccess_Attribute", source := .attributeAccess,
      target := .attribute, single := true }
  | .classGrantsFriendship => {
      name := "Class_GrantsFriendship", source := .plainClass, target := .friendship }
  | .classIsSubclass => { name := "Class_IsSubclass", source := .plainClass, target := .type }
  | .classGenericHasGenericParameter => {
      name := "ClassGeneric_HasGenericParameter", source := .classGeneric,
      target := .genericParameter, containment := true }
  | .classGenericInstanceHasArguments => {
      name := "ClassGenericInstance_HasArguments", source := .classGenericInstance,
      target := .type, carries := .bound }
  | .classGenericSpecHasArguments => {
      name := "ClassGenericSpec_HasArguments", source := .classGenericSpec,
      target := .type, carries := .bound }
  | .classGenericSpecSpecialize => {
      name := "ClassGenericSpec_Specialize", source := .classGenericSpec,
      target := .classGeneric, single := true }
  | .friendshipFriend => {
      name := "Friendship_Friend", source := .friendship, target := .scope, single := true }
  | .genericParameterHasParameterConstraint => {
      name := "GenericParameter_HasParameterConstraint", source := .genericParameter,
      target := .type }
  | .memberAggregated => {
      name := "Member_Aggregated", source := .member, target := .member, single := true }
  | .memberBelongsTo => { name := "Member_BelongsTo", source := .member, target := .component }
  | .memberCompilationUnit => {
      name := "Member_CompilationUnit", source := .member, target := .file }
  | .memberDeclares => {
      name := "Member_Declares", source := .member, target := .member, single := true }
  | .memberHasComment => { name := "Member_HasComment", source := .member, target := .comment }
  | .memberInstance => { name := "Member_Instance", source := .member, target := .member }
  | .memberIsContainedIn => {
      name := "Member_IsContainedIn", source := .member, target := .file, carries := .position }
  | .memberLanguageVariant => {
      name := "Member_LanguageVariant", source := .member, target := .member, single := true }
  | .memberUses => { name := "Member_Uses", source := .member, target := .type }
  | .memberVariant => { name := "Member_Variant", source := .member, target := .member }
  | .methodAccessesAttribute => {
      name := "Method_AccessesAttribute", source := .method, target := .attributeAccess }
  | .methodCalls => { name := "Method_Calls", source := .method, target := .methodCall }
  | .methodCanThrow => { name := "Method_CanThrow", source := .method, target := .type }
  | .methodHasControlFlowBlock => {
      name := "Method_HasControlFlowBlock", source := .method,
      target := .controlFlowBlock, containment := true }
  | .methodHasParameter => {
      name := "Method_HasParameter", source := .method, target := .parameter, containment := true }
  | .methodInstantiates => { name := "Method_Instantiates", source := .method, target := .type }
  | .methodReturns => { name := "Method_Returns", source := .method, target := .type }
  | .methodThrows => { name := "Method_Throws", source := .method, target := .type }
  | .methodCallMethod => {
      name := "MethodCall_Method", source := .methodCall, target := .method, single := true }
  | .methodGenericHasGenericParameter => {
      name := "MethodGeneric_HasGenericParameter", source := .methodGeneric,
      target := .genericParameter, containment := true }
  | .methodGenericInstanceHasArguments => {
      name := "MethodGenericInstance_HasArguments", source := .methodGenericInstance,
      target := .type, carries := .bound }
  | .methodGenericSpecHasArguments => {
      name := "MethodGenericSpec_HasArguments", source := .methodGenericSpec,
      target := .type, carries := .bound }
  | .methodGenericSpecSpecialize => {
      name := "MethodGenericSpec_Specialize", source := .methodGenericSpec,
      target := .methodGeneric, single := true }
  | .parameterHasType => {
      name := "Parameter_HasType", source := .parameter, target := .type, single := true }
  | .scopeHasMember => {
      name := "Scope_HasMember", source := .scope, target := .member, containment := true }
  | .fileHasComment => { name := "File_HasComment", source := .file, target := .comment }
  | .fileIncludes => { name := "File_Includes", source := .file, target := .file }
  | .fileSystemHasFSEntry => {
      name := "FileSystem_HasFSEntry", source := .fileSystem,
      target := .fsEntry, containment := true }
  | .folderContains => {
      name := "Folder_Contains", source := .folder, target := .fsEntry, containment := true }
  | .typeHasTypeFormer => { name := "Type_HasTypeFormer", source := .type, target := .typeFormer }
  | .typeFormerMethodHasParameterType => {
      name := "TypeFormerMethod_HasParameterType", source := .typeFormerMethod,
      target := .type, carries := .parameter }
  | .typeFormerMethodHasReturnType => {
      name := "TypeFormerMethod_HasReturnType", source := .typeFormerMethod,
      target := .type, single := true }
  | .typeFormerTypeRefersTo => {
      name := "TypeFormerType_RefersTo", source := .typeFormerType,
      target := .base, single := true }

def name (e : EdgeKind) : String :=
  e.describe.name

/-- The kind of node that edges start at. -/
def source (e : EdgeKind) : NodeKind :=
  e.describe.source

/-- The kind of node that edges point to. -/
def target (e : EdgeKind) : NodeKind :=
  e.describe.target

/-- The kind of value that each edge carries. -/
def carries (e : EdgeKind) : ValueKind :=
  e.describe.carries

/-- Whether the source of an edge becomes the parent of its target. -/
def isContainment (e : EdgeKind) : Bool :=
  e.describe.containment

/-- Whether a node has at most one edge of the kind. -/
def isSingle (e : EdgeKind) : Bool :=
  e.describe.single

end EdgeKind

instance : Enumerated EdgeKind where
  label := "EdgeKind"
  all := [.componentContains, .componentHasFiles, .controlFlowBlockCalls, .controlFlowBlockPred,
    .namedDependsOn, .attributeCalls, .attributeHasType, .attributeAccessAttribute,
    .classGrantsFriendship, .classIsSubclass, .classGenericHasGenericParameter,
    .classGenericInstanceHasArguments, .classGenericSpecHasArguments, .classGenericSpecSpecialize,
    .friendshipFriend, .genericParameterHasParameterConstraint, .memberAggregated, .memberBelongsTo,
    .memberCompilationUnit, .memberDeclares, .memberHasComment, .memberInstance,
    .memberIsContainedIn, .memberLanguageVariant, .memberUses, .memberVariant,
    .methodAccessesAttribute, .methodCalls, .methodCanThrow, .methodHasControlFlowBlock,
    .methodHasParameter, .methodInstantiates, .methodReturns, .methodThrows, .methodCallMethod,
    .methodGenericHasGenericParameter, .methodGenericInstanceHasArguments,
    .methodGenericSpecHasArguments, .methodGenericSpecSpecialize, .parameterHasType,
    .scopeHasMember, .fileHasComment, .fileIncludes, .fileSystemHasFSEntry, .folderContains,
    .typeHasTypeFormer, .typeFormerMethodHasParameterType, .typeFormerMethodHasReturnType,
    .typeFormerTypeRefersTo]
  name := EdgeKind.name
  nodup := by decide
  complete := by intro a; cases a <;> decide

/-- The edge kinds available on nodes of a kind: those inherited from farther ancestors first, and
those of one layer in the order of declaration. -/
def NodeKind.edgeKinds (k : NodeKind) : List EdgeKind :=
  (List.range (k.depth + 1)).flatMap fun layer =>
    (Enumerated.all : List EdgeKind).filter fun e => k.isKindOf e.source && e.source.depth == layer

/-- A set of edge kinds, listed in the order of declaration. -/
structure EdgeSet where
  kinds : List EdgeKind
deriving DecidableEq, Repr

namespace EdgeSet

def empty : EdgeSet :=
  ⟨[]⟩

/-- The set of the edge kinds in a list; order and repetitions do not matter. -/
def ofList (ks : List EdgeKind) : EdgeSet :=
  ⟨(Enumerated.all : List EdgeKind).filter fun e => ks.contains e⟩

/-- Whether an edge kind is a member. -/
def contains (s : EdgeSet) (e : EdgeKind) : Bool :=
  s.kinds.contains e

/-- The set made from a list has exactly the kinds of the list. -/
@[simp] theorem contains_ofList (ks : List EdgeKind) (e : EdgeKind) :
    (ofList ks).contains e = ks.contains e := by
  have listed := Enumerated.complete e
  by_cases h : e ∈ ks <;> simp [contains, ofList, h, listed]

end EdgeSet

/-- Which edge kinds an index of incoming edges records; `none` records every kind. -/
abbrev EdgeSelector := Option EdgeSet

/-- Whether a selector picks an edge kind. -/
def EdgeSelector.selects (s : EdgeSelector) (e : EdgeKind) : Bool :=
  match s with
  | none => true
  | some kinds => kinds.contains e

end CodeGraph
