import CodeGraph.Json.Record
import CodeGraph.Node.Attributes

/-!
# Attributes and edge values as JSON

Attributes and edge values are written as an object with one member, whose name tells which form
they have. Attributes of several layers are a list of their layers.
-/

set_option autoImplicit false

namespace CodeGraph

def MemberAttributes.fields : JsonRecord MemberAttributes :=
  [(JsonForm.name Accessibility).field "accessibility" (·.accessibility)
      fun v a => { a with accessibility := v },
    JsonForm.word.field "comment_lines" (·.commentLines) fun v a => { a with commentLines := v },
    JsonForm.key.field "demangled_name" (·.demangledName) fun v a => { a with demangledName := v },
    JsonForm.flag.field "is_compiler_generated" (·.isCompilerGenerated)
      fun v a => { a with isCompilerGenerated := v },
    JsonForm.flag.field "is_static" (·.isStatic) fun v a => { a with isStatic := v },
    (JsonForm.name Language).field "language" (·.language) fun v a => { a with language := v },
    JsonForm.key.field "mangled_name" (·.mangledName) fun v a => { a with mangledName := v }]

def ScopeAttributes.fields : JsonRecord ScopeAttributes :=
  [JsonForm.word.field "lloc" (·.lloc) fun v a => { a with lloc := v },
    JsonForm.word.field "loc" (·.loc) fun v a => { a with loc := v },
    JsonForm.word.field "tlloc" (·.tlloc) fun v a => { a with tlloc := v },
    JsonForm.word.field "tloc" (·.tloc) fun v a => { a with tloc := v },
    JsonForm.flag.field "is_anonymous" (·.isAnonymous) fun v a => { a with isAnonymous := v }]

/-- The fields of the layer of classes. -/
def ClassAttributes.fields : JsonRecord ClassAttributes :=
  [(JsonForm.name ClassKind).field "class_kind" (·.classKind) fun v a => { a with classKind := v },
    JsonForm.flag.field "is_abstract" (·.isAbstract) fun v a => { a with isAbstract := v },
    JsonForm.word.field "object_size" (·.objectSize) fun v a => { a with objectSize := v }]

/-- The fields of the layer of methods. -/
def MethodAttributes.fields : JsonRecord MethodAttributes :=
  [(JsonForm.name MethodKind).field "method_kind" (·.methodKind)
      fun v a => { a with methodKind := v },
    JsonForm.flag.field "is_abstract" (·.isAbstract) fun v a => { a with isAbstract := v },
    JsonForm.flag.field "is_virtual" (·.isVirtual) fun v a => { a with isVirtual := v },
    JsonForm.word.field "nesting_level" (·.nestingLevel) fun v a => { a with nestingLevel := v },
    JsonForm.word.field "nesting_level_else_if" (·.nestingLevelElseIf)
      fun v a => { a with nestingLevelElseIf := v },
    JsonForm.word.field "number_of_branches" (·.numberOfBranches)
      fun v a => { a with numberOfBranches := v },
    JsonForm.word.field "number_of_statements" (·.numberOfStatements)
      fun v a => { a with numberOfStatements := v },
    JsonForm.word.field "distinct_operands" (·.distinctOperands)
      fun v a => { a with distinctOperands := v },
    JsonForm.word.field "distinct_operators" (·.distinctOperators)
      fun v a => { a with distinctOperators := v },
    JsonForm.word.field "total_operands" (·.totalOperands) fun v a => { a with totalOperands := v },
    JsonForm.word.field "total_operators" (·.totalOperators)
      fun v a => { a with totalOperators := v }]

/-- The fields of the layer of components. -/
def ComponentAttributes.fields : JsonRecord ComponentAttributes :=
  [JsonForm.word.field "tlloc" (·.tlloc) fun v a => { a with tlloc := v },
    JsonForm.word.field "tloc" (·.tloc) fun v a => { a with tloc := v },
    (JsonForm.name AnalysisTime).field "analysis_time" (·.analysisTime)
      fun v a => { a with analysisTime := v },
    JsonForm.key.field "changeset_id" (·.changesetId) fun v a => { a with changesetId := v },
    JsonForm.key.field "short_name" (·.shortName) fun v a => { a with shortName := v }]

/-- The fields of the layer of files. -/
def FileAttributes.fields : JsonRecord FileAttributes :=
  [JsonForm.word.field "cloc" (·.cloc) fun v a => { a with cloc := v },
    JsonForm.word.field "lloc" (·.lloc) fun v a => { a with lloc := v },
    JsonForm.word.field "loc" (·.loc) fun v a => { a with loc := v },
    JsonForm.word.field "number_of_branches" (·.numberOfBranches)
      fun v a => { a with numberOfBranches := v }]

def SourcePosition.fields : JsonRecord SourcePosition :=
  [(JsonForm.name Realization).field "realization_level" (·.realization)
      fun v a => { a with realization := v },
    JsonForm.word.field "line" (·.line) fun v a => { a with line := v },
    JsonForm.word.field "column" (·.column) fun v a => { a with column := v },
    JsonForm.word.field "end_line" (·.endLine) fun v a => { a with endLine := v },
    JsonForm.word.field "end_column" (·.endColumn) fun v a => { a with endColumn := v }]

/-- A member layer, a scope layer and a third part, as a list. -/
def JsonForm.scoped {β : Type} (own : JsonForm β) :
    JsonForm (MemberAttributes × ScopeAttributes × β) where
  write v :=
    .list [MemberAttributes.fields.write v.1, ScopeAttributes.fields.write v.2.1, own.write v.2.2]
  read
    | .list [m, s, o] => do
      let member ← MemberAttributes.fields.update {} m
      let scope ← ScopeAttributes.fields.update {} s
      let third ← own.read o
      pure (member, scope, third)
    | _ => none

namespace Attributes

/-- The forms that attributes have, those that hold nothing apart. -/
def variants : List (JsonVariant Attributes) :=
  [(JsonForm.key.inside "text").variant "Comment" .comment
      fun | .comment text => some text | _ => none,
    ComponentAttributes.fields.form.variant "Component" .component
      fun | .component own => some own | _ => none,
    (JsonForm.key.inside "grantee").variant "Friendship" .friendship
      fun | .friendship grantee => some grantee | _ => none,
    ((JsonForm.name GenericParameterKind).inside "kind").variant "GenericParameter"
      .genericParameter fun | .genericParameter kind => some kind | _ => none,
    ((JsonForm.name ParameterKind).inside "kind").variant "Parameter" .parameter
      fun | .parameter kind => some kind | _ => none,
    FileAttributes.fields.form.variant "File" .file fun | .file own => some own | _ => none,
    MemberAttributes.fields.form.variant "Attribute" .attribute
      fun | .attribute m => some m | _ => none,
    ClassAttributes.fields.form.scoped.variant "Class" (fun v => .classes v.1 v.2.1 v.2.2)
      fun | .classes m s own => some (m, s, own) | _ => none,
    MethodAttributes.fields.form.scoped.variant "Method" (fun v => .method v.1 v.2.1 v.2.2)
      fun | .method m s own => some (m, s, own) | _ => none,
    (JsonForm.name PackageKind).scoped.variant "Package" (fun v => .package v.1 v.2.1 v.2.2)
      fun | .package m s kind => some (m, s, kind) | _ => none,
    ((JsonForm.name SimpleTypeKind).inside "kind").variant "SimpleType" .simpleType
      fun | .simpleType kind => some kind | _ => none,
    ((JsonForm.name PointerKind).inside "kind").variant "TypeFormerPointer" .pointer
      fun | .pointer kind => some kind | _ => none]

/-- The word for attributes that hold nothing. -/
def emptyWord : String :=
  "Empty"

def form : JsonForm Attributes where
  write := (JsonVariant.form variants emptyWord).write
  read j :=
    match j with
    | .text s => if s = emptyWord then some .empty else none
    | j => (JsonVariant.form variants emptyWord).read j

/-- Replaces the given fields of the layer with a given name; attributes that lack it give none. -/
def updateLayer (a : Attributes) (layer : String) (j : Json) : Option Attributes :=
  match layer with
  | "member" => a.member?.bind fun x => (MemberAttributes.fields.update x j).map a.setMember
  | "scope" => a.scope?.bind fun x => (ScopeAttributes.fields.update x j).map a.setScope
  | "class" => a.class?.bind fun x => (ClassAttributes.fields.update x j).map a.setClass
  | "method" => a.method?.bind fun x => (MethodAttributes.fields.update x j).map a.setMethod
  | "component" =>
    a.component?.bind fun x => (ComponentAttributes.fields.update x j).map a.setComponent
  | "file" => a.file?.bind fun x => (FileAttributes.fields.update x j).map a.setFile
  | _ => none

/-- The layers of attributes by name, those that are missing as null. -/
def layersJson (a : Attributes) : Json :=
  let orNull {β : Type} (form : JsonForm β) (layer : Option β) : Json :=
    match layer with
    | some b => form.write b
    | none => .null
  .object [
    ("member", orNull MemberAttributes.fields.form a.member?),
    ("scope", orNull ScopeAttributes.fields.form a.scope?),
    ("class", orNull ClassAttributes.fields.form a.class?),
    ("method", orNull MethodAttributes.fields.form a.method?),
    ("component", orNull ComponentAttributes.fields.form a.component?),
    ("file", orNull FileAttributes.fields.form a.file?),
    ("comment_text", orNull JsonForm.key a.commentText?),
    ("simple_type_kind", orNull (JsonForm.name SimpleTypeKind) a.simpleType?),
    ("pointer_kind", orNull (JsonForm.name PointerKind) a.pointer?)]

end Attributes

namespace EdgeValue

def variants : List (JsonVariant EdgeValue) :=
  [JsonForm.key.variant "String" .text fun | .text key => some key | _ => none,
    SourcePosition.fields.form.variant "SourcePosition" .position
      fun | .position place => some place | _ => none,
    (JsonForm.name TypeArgumentBound).variant "TypeArgumentConstraint" .bound
      fun | .bound kind => some kind | _ => none,
    (JsonForm.name ParameterKind).variant "Parameter" .parameter
      fun | .parameter kind => some kind | _ => none]

def form : JsonForm EdgeValue :=
  JsonVariant.form variants ""

end EdgeValue

end CodeGraph
