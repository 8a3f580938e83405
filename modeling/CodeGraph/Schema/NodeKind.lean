import CodeGraph.Enumerated

/-!
# Node kinds

The kinds of node, in one single-inheritance hierarchy below `base`. Abstract kinds are layers of
the hierarchy only; special kinds are the value-like nodes that a walk visits in a pass of their
own. The lineage of a kind lists the kind and its ancestors up to `base`; being of a kind is
membership in the lineage.
-/

set_option autoImplicit false

namespace CodeGraph

/-- The kind of a node; the order of declaration is the order of the binary codes. -/
inductive NodeKind
  | base
  | comment
  | component
  | controlFlowBlock
  | named
  | attribute
  | attributeAccess
  | plainClass
  | classGeneric
  | classGenericInstance
  | classGenericSpec
  | friendship
  | genericParameter
  | member
  | method
  | methodCall
  | methodGeneric
  | methodGenericInstance
  | methodGenericSpec
  | package
  | parameter
  | scope
  | fsEntry
  | file
  | fileSystem
  | folder
  | simpleType
  | type
  | typeFormer
  | typeFormerArray
  | typeFormerMethod
  | typeFormerNonType
  | typeFormerPointer
  | typeFormerType
deriving DecidableEq, Repr

namespace NodeKind

def name : NodeKind → String
  | .base => "Base"
  | .comment => "Comment"
  | .component => "Component"
  | .controlFlowBlock => "ControlFlowBlock"
  | .named => "Named"
  | .attribute => "Attribute"
  | .attributeAccess => "AttributeAccess"
  | .plainClass => "Class"
  | .classGeneric => "ClassGeneric"
  | .classGenericInstance => "ClassGenericInstance"
  | .classGenericSpec => "ClassGenericSpec"
  | .friendship => "Friendship"
  | .genericParameter => "GenericParameter"
  | .member => "Member"
  | .method => "Method"
  | .methodCall => "MethodCall"
  | .methodGeneric => "MethodGeneric"
  | .methodGenericInstance => "MethodGenericInstance"
  | .methodGenericSpec => "MethodGenericSpec"
  | .package => "Package"
  | .parameter => "Parameter"
  | .scope => "Scope"
  | .fsEntry => "FSEntry"
  | .file => "File"
  | .fileSystem => "FileSystem"
  | .folder => "Folder"
  | .simpleType => "SimpleType"
  | .type => "Type"
  | .typeFormer => "TypeFormer"
  | .typeFormerArray => "TypeFormerArray"
  | .typeFormerMethod => "TypeFormerMethod"
  | .typeFormerNonType => "TypeFormerNonType"
  | .typeFormerPointer => "TypeFormerPointer"
  | .typeFormerType => "TypeFormerType"

end NodeKind

instance : Enumerated NodeKind where
  label := "NodeKind"
  all := [.base, .comment, .component, .controlFlowBlock, .named, .attribute, .attributeAccess,
    .plainClass, .classGeneric, .classGenericInstance, .classGenericSpec, .friendship,
    .genericParameter, .member, .method, .methodCall, .methodGeneric, .methodGenericInstance,
    .methodGenericSpec, .package, .parameter, .scope, .fsEntry, .file, .fileSystem, .folder,
    .simpleType, .type, .typeFormer, .typeFormerArray, .typeFormerMethod, .typeFormerNonType,
    .typeFormerPointer, .typeFormerType]
  name := NodeKind.name
  nodup := by decide
  complete := by intro a; cases a <;> decide

namespace NodeKind

/-- The kind that a kind directly extends; only `base` extends none. -/
def base? : NodeKind → Option NodeKind
  | .base => none
  | .comment | .controlFlowBlock | .named | .attributeAccess | .friendship | .methodCall
  | .simpleType | .type | .typeFormer => some .base
  | .component | .genericParameter | .member | .parameter | .fsEntry | .fileSystem => some .named
  | .attribute | .scope => some .member
  | .plainClass | .method | .package => some .scope
  | .classGeneric | .classGenericInstance => some .plainClass
  | .classGenericSpec => some .classGeneric
  | .methodGeneric | .methodGenericInstance => some .method
  | .methodGenericSpec => some .methodGeneric
  | .file | .folder => some .fsEntry
  | .typeFormerArray | .typeFormerMethod | .typeFormerNonType | .typeFormerPointer
  | .typeFormerType => some .typeFormer

/-- Abstract kinds are never the kind of a node in a graph. -/
def isAbstract : NodeKind → Bool
  | .base | .named | .member | .scope | .fsEntry | .typeFormer => true
  | _ => false

/-- Special kinds are shared values that containment does not always reach. -/
def isSpecial : NodeKind → Bool
  | .comment | .component | .attributeAccess | .friendship | .methodCall | .fileSystem
  | .simpleType | .type | .typeFormerArray | .typeFormerMethod | .typeFormerNonType
  | .typeFormerPointer | .typeFormerType => true
  | _ => false

/-- Composite kinds are those whose nodes are made of parts. -/
def isComposite : NodeKind → Bool
  | .classGeneric | .classGenericSpec | .method | .methodGeneric | .methodGenericInstance
  | .methodGenericSpec | .fileSystem | .folder => true
  | _ => false

/-- The kinds met on at most `steps` steps up the hierarchy, the start included. -/
def climb : Nat → NodeKind → List NodeKind
  | 0, _ => []
  | steps + 1, k => k :: (match k.base? with
    | none => []
    | some b => climb steps b)

/-- A kind and its ancestors, nearest first; no lineage is longer than the list of all kinds. -/
def lineage (k : NodeKind) : List NodeKind :=
  k.climb 34

/-- Whether a kind is `ancestor` or extends it, directly or not. -/
def isKindOf (k ancestor : NodeKind) : Bool :=
  k.lineage.contains ancestor

/-- Whether a kind is a proper ancestor of `other`. -/
def isBaseKindOf (k other : NodeKind) : Bool :=
  k != other && other.isKindOf k

/-- The number of proper ancestors of a kind. -/
def depth (k : NodeKind) : Nat :=
  k.lineage.length - 1

/-- Every lineage ends at the root of the hierarchy, so climbing never stops for lack of steps. -/
theorem getLast?_lineage (k : NodeKind) : k.lineage.getLast? = some .base := by
  cases k <;> decide

/-- Every kind is one of its own kind. -/
@[simp] theorem isKindOf_self (k : NodeKind) : k.isKindOf k = true := by
  cases k <;> decide

/-- What belongs to a narrower kind belongs to the wider one too. -/
theorem isKindOf_trans {a b c : NodeKind} (ab : a.isKindOf b = true) (bc : b.isKindOf c = true) :
    a.isKindOf c = true := by
  have inherited : ∀ k ∈ a.lineage, ∀ l ∈ k.lineage, l ∈ a.lineage := by
    cases a <;> decide
  have hb : b ∈ a.lineage := by simpa [isKindOf] using ab
  have hc : c ∈ b.lineage := by simpa [isKindOf] using bc
  simpa [isKindOf] using inherited b hb c hc

end NodeKind

end CodeGraph
