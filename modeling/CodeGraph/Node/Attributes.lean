import CodeGraph.NodeId
import CodeGraph.Schema.EdgeKind
import CodeGraph.Schema.Values

/-!
# Attributes

The attributes of a node depend on its kind. Layers that several kinds share, such as what every
member or every scope has, are records of their own, and the attributes of a node hold those of
its layers. A fresh node has the default attributes of its kind.
-/

set_option autoImplicit false

namespace CodeGraph

/-- What every member has. -/
structure MemberAttributes where
  accessibility : Accessibility := default
  commentLines : UInt32 := 0
  demangledName : TextKey := .empty
  isCompilerGenerated : Bool := false
  isStatic : Bool := false
  language : Language := default
  mangledName : TextKey := .empty
deriving DecidableEq, Repr, Inhabited

/-- What every scope has. -/
structure ScopeAttributes where
  lloc : UInt32 := 0
  loc : UInt32 := 0
  tlloc : UInt32 := 0
  tloc : UInt32 := 0
  isAnonymous : Bool := false
deriving DecidableEq, Repr, Inhabited

/-- What classes have beyond scopes. -/
structure ClassAttributes where
  classKind : ClassKind := default
  isAbstract : Bool := false
  objectSize : UInt32 := 0
deriving DecidableEq, Repr, Inhabited

/-- What methods have beyond scopes. -/
structure MethodAttributes where
  methodKind : MethodKind := default
  isAbstract : Bool := false
  isVirtual : Bool := false
  nestingLevel : UInt32 := 0
  nestingLevelElseIf : UInt32 := 0
  numberOfBranches : UInt32 := 0
  numberOfStatements : UInt32 := 0
  distinctOperands : UInt32 := 0
  distinctOperators : UInt32 := 0
  totalOperands : UInt32 := 0
  totalOperators : UInt32 := 0
deriving DecidableEq, Repr, Inhabited

/-- What components have. -/
structure ComponentAttributes where
  tlloc : UInt32 := 0
  tloc : UInt32 := 0
  analysisTime : AnalysisTime := default
  changesetId : TextKey := .empty
  shortName : TextKey := .empty
deriving DecidableEq, Repr, Inhabited

/-- What files have. -/
structure FileAttributes where
  cloc : UInt32 := 0
  lloc : UInt32 := 0
  loc : UInt32 := 0
  numberOfBranches : UInt32 := 0
deriving DecidableEq, Repr, Inhabited

/-- The attributes of a node, apart from its name. -/
inductive Attributes
  | empty
  | comment (text : TextKey)
  | component (own : ComponentAttributes)
  | friendship (grantee : TextKey)
  | genericParameter (kind : GenericParameterKind)
  | parameter (kind : ParameterKind)
  | file (own : FileAttributes)
  | attribute (member : MemberAttributes)
  | classes (member : MemberAttributes) (scope : ScopeAttributes) (own : ClassAttributes)
  | method (member : MemberAttributes) (scope : ScopeAttributes) (own : MethodAttributes)
  | package (member : MemberAttributes) (scope : ScopeAttributes) (kind : PackageKind)
  | simpleType (kind : SimpleTypeKind)
  | pointer (kind : PointerKind)
deriving DecidableEq, Repr, Inhabited

namespace Attributes

def ofKind (k : NodeKind) : Attributes :=
  if k.isKindOf .plainClass then .classes {} {} {}
  else if k.isKindOf .method then .method {} {} {}
  else
    match k with
    | .comment => .comment .empty
    | .component => .component {}
    | .friendship => .friendship .empty
    | .genericParameter => .genericParameter default
    | .parameter => .parameter default
    | .file => .file {}
    | .attribute => .attribute {}
    | .package => .package {} {} default
    | .simpleType => .simpleType default
    | .typeFormerPointer => .pointer default
    | _ => .empty

def member? : Attributes → Option MemberAttributes
  | .attribute m | .classes m _ _ | .method m _ _ | .package m _ _ => some m
  | _ => none

def scope? : Attributes → Option ScopeAttributes
  | .classes _ s _ | .method _ s _ | .package _ s _ => some s
  | _ => none

def class? : Attributes → Option ClassAttributes
  | .classes _ _ c => some c
  | _ => none

def method? : Attributes → Option MethodAttributes
  | .method _ _ m => some m
  | _ => none

def component? : Attributes → Option ComponentAttributes
  | .component c => some c
  | _ => none

def file? : Attributes → Option FileAttributes
  | .file f => some f
  | _ => none

def commentText? : Attributes → Option TextKey
  | .comment text => some text
  | _ => none

/-- The built-in type of a simple type. -/
def simpleType? : Attributes → Option SimpleTypeKind
  | .simpleType kind => some kind
  | _ => none

def pointer? : Attributes → Option PointerKind
  | .pointer kind => some kind
  | _ => none

/-- The attributes with another member layer, where there is one. -/
def setMember (a : Attributes) (m : MemberAttributes) : Attributes :=
  match a with
  | .attribute _ => .attribute m
  | .classes _ s c => .classes m s c
  | .method _ s c => .method m s c
  | .package _ s k => .package m s k
  | other => other

/-- The attributes with another scope layer, where there is one. -/
def setScope (a : Attributes) (s : ScopeAttributes) : Attributes :=
  match a with
  | .classes m _ c => .classes m s c
  | .method m _ c => .method m s c
  | .package m _ k => .package m s k
  | other => other

/-- The attributes with another layer of classes, where there is one. -/
def setClass (a : Attributes) (c : ClassAttributes) : Attributes :=
  match a with
  | .classes m s _ => .classes m s c
  | other => other

/-- The attributes with another layer of methods, where there is one. -/
def setMethod (a : Attributes) (c : MethodAttributes) : Attributes :=
  match a with
  | .method m s _ => .method m s c
  | other => other

/-- The attributes with another layer of components, where there is one. -/
def setComponent (a : Attributes) (c : ComponentAttributes) : Attributes :=
  match a with
  | .component _ => .component c
  | other => other

/-- The attributes with another layer of files, where there is one. -/
def setFile (a : Attributes) (f : FileAttributes) : Attributes :=
  match a with
  | .file _ => .file f
  | other => other

end Attributes

/-- A range of source code. -/
structure SourcePosition where
  realization : Realization := default
  line : UInt32 := 0
  column : UInt32 := 0
  endLine : UInt32 := 0
  endColumn : UInt32 := 0
deriving DecidableEq, Repr, Inhabited

/-- The value that an edge carries beside its target. -/
inductive EdgeValue
  | text (key : TextKey)
  | position (place : SourcePosition)
  | bound (kind : TypeArgumentBound)
  | parameter (kind : ParameterKind)
deriving DecidableEq, Repr

def EdgeValue.kind : EdgeValue → ValueKind
  | .text _ => .text
  | .position _ => .position
  | .bound _ => .bound
  | .parameter _ => .parameter

/-- The kind of a value that may be missing. -/
def EdgeValue.kindOf : Option EdgeValue → ValueKind
  | none => .nothing
  | some value => value.kind

end CodeGraph
