import CodeGraph.Enumerated

/-!
# Value vocabularies

The closed vocabularies that attributes of nodes and values of edges draw from. Each is listed in
the order of its one-byte binary code, and its `Inhabited` instance holds the value of a fresh
attribute.
-/

set_option autoImplicit false

namespace CodeGraph

/-- Who may use a member. -/
inductive Accessibility
  | internalAccess
  | internalProtectedAccess
  | unspecified
  | packagePrivateAccess
  | privateAccess
  | protectedAccess
  | protectedInternalAccess
  | publicAccess
deriving DecidableEq, Repr

instance : Inhabited Accessibility := ⟨.unspecified⟩

instance : Enumerated Accessibility where
  label := "AccessibilityKind"
  all := [.internalAccess, .internalProtectedAccess, .unspecified, .packagePrivateAccess,
    .privateAccess, .protectedAccess, .protectedInternalAccess, .publicAccess]
  name
    | .internalAccess => "Internal"
    | .internalProtectedAccess => "InternalProtected"
    | .unspecified => "None"
    | .packagePrivateAccess => "PackagePrivate"
    | .privateAccess => "Private"
    | .protectedAccess => "Protected"
    | .protectedInternalAccess => "ProtectedInternal"
    | .publicAccess => "Public"
  nodup := by decide
  complete := by intro a; cases a <;> decide

/-- When a component is analysed. -/
inductive AnalysisTime
  | now
  | before
  | never
deriving DecidableEq, Repr

instance : Inhabited AnalysisTime := ⟨.now⟩

instance : Enumerated AnalysisTime where
  label := "AnalysisTimeKind"
  all := [.now, .before, .never]
  name
    | .now => "Now"
    | .before => "Before"
    | .never => "Never"
  nodup := by decide
  complete := by intro a; cases a <;> decide

/-- What a class node stands for. -/
inductive ClassKind
  | annotationType
  | plainClass
  | delegate
  | enumeration
  | interface
  | record
  | union
deriving DecidableEq, Repr

instance : Inhabited ClassKind := ⟨.plainClass⟩

instance : Enumerated ClassKind where
  label := "ClassKind"
  all := [.annotationType, .plainClass, .delegate, .enumeration, .interface, .record, .union]
  name
    | .annotationType => "Annotation"
    | .plainClass => "Class"
    | .delegate => "Delegate"
    | .enumeration => "Enum"
    | .interface => "Interface"
    | .record => "Struct"
    | .union => "Union"
  nodup := by decide
  complete := by intro a; cases a <;> decide

/-- What a generic parameter ranges over. -/
inductive GenericParameterKind
  | constraint
  | nonType
  | nonTypePack
  | template
  | templatePack
  | type
  | typePack
deriving DecidableEq, Repr

instance : Inhabited GenericParameterKind := ⟨.type⟩

instance : Enumerated GenericParameterKind where
  label := "GenericParameterKind"
  all := [.constraint, .nonType, .nonTypePack, .template, .templatePack, .type, .typePack]
  name
    | .constraint => "Constraint"
    | .nonType => "NonType"
    | .nonTypePack => "NonTypePack"
    | .template => "Template"
    | .templatePack => "TemplatePack"
    | .type => "Type"
    | .typePack => "TypePack"
  nodup := by decide
  complete := by intro a; cases a <;> decide

/-- The source language of a graph or of one of its members. -/
inductive Language
  | notSet
  | c
  | cpp
  | java
  | csharp
  | sql
  | magic
  | rpg
  | python
  | javascript
deriving DecidableEq, Repr

instance : Inhabited Language := ⟨.notSet⟩

instance : Enumerated Language where
  label := "LanguageKind"
  all := [.notSet, .c, .cpp, .java, .csharp, .sql, .magic, .rpg, .python, .javascript]
  name
    | .notSet => "NotSet"
    | .c => "C"
    | .cpp => "Cpp"
    | .java => "Java"
    | .csharp => "Csharp"
    | .sql => "Sql"
    | .magic => "Magic"
    | .rpg => "Rpg"
    | .python => "Python"
    | .javascript => "Javascript"
  nodup := by decide
  complete := by intro a; cases a <;> decide

/-- What a method node stands for. -/
inductive MethodKind
  | add
  | constructor
  | destructor
  | get
  | menu
  | normal
  | operator
  | remove
  | set
  | subroutine
deriving DecidableEq, Repr

instance : Inhabited MethodKind := ⟨.normal⟩

instance : Enumerated MethodKind where
  label := "MethodKind"
  all := [.add, .constructor, .destructor, .get, .menu, .normal, .operator, .remove, .set,
    .subroutine]
  name
    | .add => "Add"
    | .constructor => "Constructor"
    | .destructor => "Destructor"
    | .get => "Get"
    | .menu => "Menu"
    | .normal => "Normal"
    | .operator => "Operator"
    | .remove => "Remove"
    | .set => "Set"
    | .subroutine => "Subroutine"
  nodup := by decide
  complete := by intro a; cases a <;> decide

/-- What a package node stands for. -/
inductive PackageKind
  | package
  | module
deriving DecidableEq, Repr

instance : Inhabited PackageKind := ⟨.package⟩

instance : Enumerated PackageKind where
  label := "PackageKind"
  all := [.package, .module]
  name
    | .package => "Package"
    | .module => "Module"
  nodup := by decide
  complete := by intro a; cases a <;> decide

/-- The direction in which a parameter passes its value. -/
inductive ParameterKind
  | input
  | inputOutput
  | output
deriving DecidableEq, Repr

instance : Inhabited ParameterKind := ⟨.input⟩

instance : Enumerated ParameterKind where
  label := "ParameterKind"
  all := [.input, .inputOutput, .output]
  name
    | .input => "In"
    | .inputOutput => "InOut"
    | .output => "Out"
  nodup := by decide
  complete := by intro a; cases a <;> decide

/-- How a pointer former points. -/
inductive PointerKind
  | pointer
  | reference
deriving DecidableEq, Repr

instance : Inhabited PointerKind := ⟨.pointer⟩

instance : Enumerated PointerKind where
  label := "PointerKind"
  all := [.pointer, .reference]
  name
    | .pointer => "Pointer"
    | .reference => "Reference"
  nodup := by decide
  complete := by intro a; cases a <;> decide

/-- Whether a piece of source declares or defines a member. -/
inductive Realization
  | declares
  | defines
deriving DecidableEq, Repr

instance : Inhabited Realization := ⟨.declares⟩

instance : Enumerated Realization where
  label := "RealizationLevel"
  all := [.declares, .defines]
  name
    | .declares => "Declares"
    | .defines => "Defines"
  nodup := by decide
  complete := by intro a; cases a <;> decide

/-- The built-in type that a simple type node stands for. -/
inductive SimpleTypeKind
  | boolean
  | byte
  | character
  | decimal
  | double
  | float
  | integer
  | long
  | object
  | short
  | single
  | string
  | unicode
  | unknown
  | unsignedCharacter
  | unsignedInteger
  | unsignedLong
  | unsignedShort
  | void
deriving DecidableEq, Repr

instance : Inhabited SimpleTypeKind := ⟨.unknown⟩

instance : Enumerated SimpleTypeKind where
  label := "SimpleTypeKind"
  all := [.boolean, .byte, .character, .decimal, .double, .float, .integer, .long, .object, .short,
    .single, .string, .unicode, .unknown, .unsignedCharacter, .unsignedInteger, .unsignedLong,
    .unsignedShort, .void]
  name
    | .boolean => "Boolean"
    | .byte => "Byte"
    | .character => "Character"
    | .decimal => "Decimal"
    | .double => "Double"
    | .float => "Float"
    | .integer => "Integer"
    | .long => "Long"
    | .object => "Object"
    | .short => "Short"
    | .single => "Single"
    | .string => "String"
    | .unicode => "Unicode"
    | .unknown => "Unknown"
    | .unsignedCharacter => "UnsignedCharacter"
    | .unsignedInteger => "UnsignedInteger"
    | .unsignedLong => "UnsignedLong"
    | .unsignedShort => "UnsignedShort"
    | .void => "Void"
  nodup := by decide
  complete := by intro a; cases a <;> decide

/-- The bound that a type argument puts on its parameter. -/
inductive TypeArgumentBound
  | lowerBounded
  | none
  | unbounded
  | upperBounded
deriving DecidableEq, Repr

instance : Inhabited TypeArgumentBound := ⟨.none⟩

instance : Enumerated TypeArgumentBound where
  label := "TypeArgumentConstraintKind"
  all := [.lowerBounded, .none, .unbounded, .upperBounded]
  name
    | .lowerBounded => "LowerBounded"
    | .none => "None"
    | .unbounded => "Unbounded"
    | .upperBounded => "UpperBounded"
  nodup := by decide
  complete := by intro a; cases a <;> decide

end CodeGraph
