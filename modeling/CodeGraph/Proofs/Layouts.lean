import CodeGraph.Node.Payload

/-!
# Layouts

A layout is one list of fields that serves for writing a record and for reading it back in place.
The layers of attributes are written by one definition and read by another; each has a layout that
both follow, so that they cannot disagree on the order of the fields. Main statements:
`Attributes.save_eq_layout` and `Attributes.load_eq_layout`.
-/

set_option autoImplicit false

namespace CodeGraph

/-- The order in which the fields of a record are written and read. -/
structure Layout (α : Type) where
  save : α → Bytes
  /-- Reads the fields in place, as far as the bytes allow. -/
  load : α → Bytes → Loaded α

namespace Layout

variable {α β : Type}

/-- The layout of a record without fields. -/
def nothing : Layout α where
  save _ := []
  load a input := (a, .ok input)

/-- The layout of one field. -/
def field (c : Codec β) (get : α → β) (put : β → α → α) : Layout α where
  save a := c.encode (get a)
  load := InPlace.loadOne c.decode put

/-- The layout of a part of a record. -/
def part (l : Layout β) (get : α → β) (put : β → α → α) : Layout α where
  save a := l.save (get a)
  load a input :=
    let loaded := l.load (get a) input
    (put loaded.1 a, loaded.2)

/-- The fields of one layout, then those of another; a failure in the first ends the reading. -/
def append (first second : Layout α) : Layout α where
  save a := first.save a ++ second.save a
  load a input := (first.load a input).andThen second.load

/-- The fields of several layouts, in order. -/
def all (ls : List (Layout α)) : Layout α :=
  ls.foldr append nothing

/-- The layout of a single value, which is the whole record. -/
def value (c : Codec α) : Layout α :=
  field c (fun a => a) (fun v _ => v)

/-- Several layouts write their bytes one after another. -/
theorem save_all (ls : List (Layout α)) (a : α) :
    (all ls).save a = ls.flatMap fun l => l.save a := by
  induction ls with
  | nil => rfl
  | cons l ls ih =>
    rw [List.flatMap_cons, ← ih]
    rfl

/-- Going on with several layouts is going on with each of them in turn. -/
theorem andThen_all (ls : List (Layout α)) (loaded : Loaded α) :
    loaded.andThen (all ls).load = ls.foldl (fun loaded l => loaded.andThen l.load) loaded := by
  induction ls generalizing loaded with
  | nil =>
    obtain ⟨a, result⟩ := loaded
    cases result <;> rfl
  | cons l ls ih =>
    rw [List.foldl_cons, ← ih]
    obtain ⟨a, result⟩ := loaded
    cases result <;> rfl

/-- Several layouts are read one after another, up to the first failure. -/
theorem load_all (ls : List (Layout α)) (a : α) (input : Bytes) :
    (all ls).load a input =
      ls.foldl (fun loaded l => loaded.andThen l.load) (Loaded.start a input) :=
  andThen_all ls (Loaded.start a input)

/-- A layout restores a record through `copy` if reading the bytes of `a` into `b` succeeds, gives
`copy a b`, and leaves what followed. -/
def Restores (l : Layout α) (copy : α → α → α) : Prop :=
  ∀ a b rest, l.load b (l.save a ++ rest) = (copy a b, .ok rest)

/-- A layout without fields restores nothing. -/
theorem restores_nothing : (nothing : Layout α).Restores fun _ b => b :=
  fun _ _ _ => rfl

/-- A field with a lawful codec is restored. -/
theorem restores_field {c : Codec β} (lawful : c.Lawful) (get : α → β) (put : β → α → α) :
    (field c get put).Restores fun a b => put (get a) b := by
  intro a b rest
  simp [field, InPlace.loadOne, lawful (get a) rest]

/-- A part of a record is restored as its own layout restores it. -/
theorem restores_part {l : Layout β} {copy : β → β → β} (restores : l.Restores copy)
    (get : α → β) (put : β → α → α) :
    (l.part get put).Restores fun a b => put (copy (get a) (get b)) b := by
  intro a b rest
  simp [part, restores (get a) (get b) rest]

/-- One layout after another restores what both restore. -/
theorem restores_append {first second : Layout α} {copy copy' : α → α → α}
    (hfirst : first.Restores copy) (hsecond : second.Restores copy') :
    (first.append second).Restores fun a b => copy' a (copy a b) := by
  intro a b rest
  simp [append, Loaded.andThen, hfirst a b, hsecond a]

/-- A layout is faithful if reading the bytes of a record gives that record, whatever was there. -/
def Faithful (l : Layout α) : Prop :=
  l.Restores fun a _ => a

/-- A layout that restores every field is faithful. -/
theorem Restores.faithful {l : Layout α} {copy : α → α → α} (restores : l.Restores copy)
    (copies : ∀ a b, copy a b = a) : l.Faithful := by
  intro a b rest
  rw [restores a b rest, copies]

/-- The layout of a single value is faithful if its codec is lawful. -/
theorem faithful_value {c : Codec α} (lawful : c.Lawful) : (value c).Faithful :=
  restores_field lawful _ _

end Layout

/-! ## The layers of attributes -/

/-- The layout of the layer of members. -/
def MemberAttributes.layout : Layout MemberAttributes :=
  .all [
    .field .u8 (fun a => packFlags [a.isCompilerGenerated, a.isStatic])
      (fun v a => { a with isCompilerGenerated := v &&& 2 != 0, isStatic := v &&& 1 != 0 }),
    .field (.enumerated Accessibility) (·.accessibility) (fun v a => { a with accessibility := v }),
    .field .u32 (·.commentLines) (fun v a => { a with commentLines := v }),
    .field .textKey (·.demangledName) (fun v a => { a with demangledName := v }),
    .field (.enumerated Language) (·.language) (fun v a => { a with language := v }),
    .field .textKey (·.mangledName) (fun v a => { a with mangledName := v })]

/-- The layout of the layer of scopes. -/
def ScopeAttributes.layout : Layout ScopeAttributes :=
  .all [
    .field .u32 (·.lloc) (fun v a => { a with lloc := v }),
    .field .u32 (·.loc) (fun v a => { a with loc := v }),
    .field .u32 (·.tlloc) (fun v a => { a with tlloc := v }),
    .field .u32 (·.tloc) (fun v a => { a with tloc := v }),
    .field .bool (·.isAnonymous) (fun v a => { a with isAnonymous := v })]

/-- The layout of the layer of classes. -/
def ClassAttributes.layout : Layout ClassAttributes :=
  .all [
    .field .u8 (fun a => packFlags [a.isAbstract]) (fun v a => { a with isAbstract := v &&& 1 != 0 }),
    .field (.enumerated ClassKind) (·.classKind) (fun v a => { a with classKind := v }),
    .field .u32 (·.objectSize) (fun v a => { a with objectSize := v })]

/-- The layout of the layer of methods. -/
def MethodAttributes.layout : Layout MethodAttributes :=
  .all [
    .field .u8 (fun a => packFlags [a.isAbstract, a.isVirtual])
      (fun v a => { a with isAbstract := v &&& 2 != 0, isVirtual := v &&& 1 != 0 }),
    .field (.enumerated MethodKind) (·.methodKind) (fun v a => { a with methodKind := v }),
    .field .u32 (·.nestingLevel) (fun v a => { a with nestingLevel := v }),
    .field .u32 (·.nestingLevelElseIf) (fun v a => { a with nestingLevelElseIf := v }),
    .field .u32 (·.numberOfBranches) (fun v a => { a with numberOfBranches := v }),
    .field .u32 (·.numberOfStatements) (fun v a => { a with numberOfStatements := v }),
    .field .u32 (·.distinctOperands) (fun v a => { a with distinctOperands := v }),
    .field .u32 (·.distinctOperators) (fun v a => { a with distinctOperators := v }),
    .field .u32 (·.totalOperands) (fun v a => { a with totalOperands := v }),
    .field .u32 (·.totalOperators) (fun v a => { a with totalOperators := v })]

/-- The layout of the layer of components. -/
def ComponentAttributes.layout : Layout ComponentAttributes :=
  .all [
    .field .u32 (·.tlloc) (fun v a => { a with tlloc := v }),
    .field .u32 (·.tloc) (fun v a => { a with tloc := v }),
    .field (.enumerated AnalysisTime) (·.analysisTime) (fun v a => { a with analysisTime := v }),
    .field .textKey (·.changesetId) (fun v a => { a with changesetId := v }),
    .field .textKey (·.shortName) (fun v a => { a with shortName := v })]

/-- The layout of the layer of files. -/
def FileAttributes.layout : Layout FileAttributes :=
  .all [
    .field .u32 (·.cloc) (fun v a => { a with cloc := v }),
    .field .u32 (·.lloc) (fun v a => { a with lloc := v }),
    .field .u32 (·.loc) (fun v a => { a with loc := v }),
    .field .u32 (·.numberOfBranches) (fun v a => { a with numberOfBranches := v })]

/-- The layout of a member layer, a scope layer and a third layer. -/
def Layout.scoped {α : Type} (own : Layout α) : Layout (MemberAttributes × ScopeAttributes × α) :=
  .all [
    MemberAttributes.layout.part (·.1) (fun v a => (v, a.2.1, a.2.2)),
    ScopeAttributes.layout.part (·.2.1) (fun v a => (a.1, v, a.2.2)),
    own.part (·.2.2) (fun v a => (a.1, a.2.1, v))]

/-- The layout of attributes: their layers, which reading keeps. -/
def Attributes.layout : Layout Attributes where
  save
    | .empty => []
    | .comment text => (Layout.value .textKey).save text
    | .component own => ComponentAttributes.layout.save own
    | .friendship grantee => (Layout.value .textKey).save grantee
    | .genericParameter kind => (Layout.value (.enumerated GenericParameterKind)).save kind
    | .parameter kind => (Layout.value (.enumerated ParameterKind)).save kind
    | .file own => FileAttributes.layout.save own
    | .attribute member => MemberAttributes.layout.save member
    | .classes m s own => (Layout.scoped ClassAttributes.layout).save (m, s, own)
    | .method m s own => (Layout.scoped MethodAttributes.layout).save (m, s, own)
    | .package m s kind => (Layout.scoped (.value (.enumerated PackageKind))).save (m, s, kind)
    | .simpleType kind => (Layout.value (.enumerated SimpleTypeKind)).save kind
    | .pointer kind => (Layout.value (.enumerated PointerKind)).save kind
  load a input :=
    match a with
    | .empty => (.empty, .ok input)
    | .comment text => rebuild .comment ((Layout.value .textKey).load text input)
    | .component own => rebuild .component (ComponentAttributes.layout.load own input)
    | .friendship grantee => rebuild .friendship ((Layout.value .textKey).load grantee input)
    | .genericParameter kind =>
      rebuild .genericParameter ((Layout.value (.enumerated GenericParameterKind)).load kind input)
    | .parameter kind =>
      rebuild .parameter ((Layout.value (.enumerated ParameterKind)).load kind input)
    | .file own => rebuild .file (FileAttributes.layout.load own input)
    | .attribute member => rebuild .attribute (MemberAttributes.layout.load member input)
    | .classes m s own =>
      rebuild (fun v => .classes v.1 v.2.1 v.2.2)
        ((Layout.scoped ClassAttributes.layout).load (m, s, own) input)
    | .method m s own =>
      rebuild (fun v => .method v.1 v.2.1 v.2.2)
        ((Layout.scoped MethodAttributes.layout).load (m, s, own) input)
    | .package m s kind =>
      rebuild (fun v => .package v.1 v.2.1 v.2.2)
        ((Layout.scoped (.value (.enumerated PackageKind))).load (m, s, kind) input)
    | .simpleType kind =>
      rebuild .simpleType ((Layout.value (.enumerated SimpleTypeKind)).load kind input)
    | .pointer kind => rebuild .pointer ((Layout.value (.enumerated PointerKind)).load kind input)

/-! ## Writing and reading follow the layouts -/

/-- The layer of members is written as its layout says. -/
theorem MemberAttributes.save_eq_layout (a : MemberAttributes) : a.save = layout.save a := by
  simp [save, layout, Layout.save_all, Layout.field]

/-- The layer of members is read as its layout says. -/
theorem MemberAttributes.load_eq_layout : load = layout.load := by
  funext a input
  rw [layout, Layout.load_all]
  rfl

/-- The layer of scopes is written as its layout says. -/
theorem ScopeAttributes.save_eq_layout (a : ScopeAttributes) : a.save = layout.save a := by
  simp [save, layout, Layout.save_all, Layout.field]

/-- The layer of scopes is read as its layout says. -/
theorem ScopeAttributes.load_eq_layout : load = layout.load := by
  funext a input
  rw [layout, Layout.load_all]
  rfl

/-- The layer of classes is written as its layout says. -/
theorem ClassAttributes.save_eq_layout (a : ClassAttributes) : a.save = layout.save a := by
  simp [save, layout, Layout.save_all, Layout.field]

/-- The layer of classes is read as its layout says. -/
theorem ClassAttributes.load_eq_layout : load = layout.load := by
  funext a input
  rw [layout, Layout.load_all]
  rfl

/-- The layer of methods is written as its layout says. -/
theorem MethodAttributes.save_eq_layout (a : MethodAttributes) : a.save = layout.save a := by
  simp [save, layout, Layout.save_all, Layout.field]

/-- The layer of methods is read as its layout says. -/
theorem MethodAttributes.load_eq_layout : load = layout.load := by
  funext a input
  rw [layout, Layout.load_all]
  rfl

/-- The layer of components is written as its layout says. -/
theorem ComponentAttributes.save_eq_layout (a : ComponentAttributes) : a.save = layout.save a := by
  simp [save, layout, Layout.save_all, Layout.field]

/-- The layer of components is read as its layout says. -/
theorem ComponentAttributes.load_eq_layout : load = layout.load := by
  funext a input
  rw [layout, Layout.load_all]
  rfl

/-- The layer of files is written as its layout says. -/
theorem FileAttributes.save_eq_layout (a : FileAttributes) : a.save = layout.save a := by
  simp [save, layout, Layout.save_all, Layout.field]

/-- The layer of files is read as its layout says. -/
theorem FileAttributes.load_eq_layout : load = layout.load := by
  funext a input
  rw [layout, Layout.load_all]
  rfl

/-- Three layers are written one after another. -/
theorem Layout.save_scoped {α : Type} (own : Layout α) (m : MemberAttributes) (s : ScopeAttributes)
    (a : α) : (Layout.scoped own).save (m, s, a) = m.save ++ s.save ++ own.save a := by
  simp [Layout.scoped, save_all, part, MemberAttributes.save_eq_layout, ScopeAttributes.save_eq_layout]

/-- Three layers are read one after another. -/
theorem Attributes.loadScoped_eq_layout {α : Type} (own : Layout α) (m : MemberAttributes)
    (s : ScopeAttributes) (a : α) (input : Bytes) :
    loadScoped own.load m s a input = (Layout.scoped own).load (m, s, a) input := by
  unfold loadScoped
  rw [MemberAttributes.load_eq_layout, ScopeAttributes.load_eq_layout, Layout.scoped,
    Layout.load_all]
  rfl

/-- Attributes are written as their layout says, in all their layers. -/
theorem Attributes.save_eq_layout (a : Attributes) : a.save = layout.save a := by
  cases a with
  | empty | comment | friendship | genericParameter | parameter | simpleType | pointer => rfl
  | component own => exact own.save_eq_layout
  | file own => exact own.save_eq_layout
  | «attribute» member => exact member.save_eq_layout
  | classes m s own =>
    rw [save, own.save_eq_layout]
    exact (Layout.save_scoped _ m s own).symm
  | method m s own =>
    rw [save, own.save_eq_layout]
    exact (Layout.save_scoped _ m s own).symm
  | package m s kind =>
    exact (Layout.save_scoped (.value (.enumerated PackageKind)) m s kind).symm

/-- Attributes are read as their layout says, in all their layers. -/
theorem Attributes.load_eq_layout (a : Attributes) (input : Bytes) :
    a.load input = layout.load a input := by
  cases a with
  | empty | comment | friendship | genericParameter | parameter | simpleType | pointer => rfl
  | component own => rw [load, ComponentAttributes.load_eq_layout]; rfl
  | file own => rw [load, FileAttributes.load_eq_layout]; rfl
  | «attribute» member => rw [load, MemberAttributes.load_eq_layout]; rfl
  | classes m s own =>
    rw [load, ClassAttributes.load_eq_layout, loadScoped_eq_layout]
    rfl
  | method m s own =>
    rw [load, MethodAttributes.load_eq_layout, loadScoped_eq_layout]
    rfl
  | package m s kind =>
    have own : loadValue (Codec.enumerated PackageKind).decode =
        (Layout.value (.enumerated PackageKind)).load := rfl
    rw [load, own, loadScoped_eq_layout]
    rfl

end CodeGraph
