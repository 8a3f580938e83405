import CodeGraph.Enumerated
import CodeGraph.Json
import CodeGraph.NodeId

/-!
# Records as JSON objects

A record is written as an object with one member for each of its fields. The fields are listed
once, each with how it is written and how it is replaced by what was read, so that the two
directions name the same members. Reading replaces the fields that are there and keeps the others.
-/

set_option autoImplicit false

namespace CodeGraph

/-- The JSON form of a type: how its values are written and read. -/
structure JsonForm (β : Type) where
  write : β → Json
  /-- The value that some JSON stands for, if it stands for one. -/
  read : Json → Option β

namespace JsonForm

def word : JsonForm UInt32 where
  write n := .number n.toNat
  read := Json.word?

def key : JsonForm TextKey where
  write k := .number k.raw.toNat
  read j := j.word?.map TextKey.mk

def flag : JsonForm Bool where
  write := .bool
  read := Json.bool?

def name (β : Type) [DecidableEq β] [Enumerated β] : JsonForm β where
  write b := .text (Enumerated.name b)
  read
    | .text s => Enumerated.ofName? s
    | _ => none

end JsonForm

/-- A field of a record: the name of its member, how it is written, and how it is replaced. -/
structure JsonField (α : Type) where
  name : String
  write : α → Json
  /-- The record with the field replaced by what some JSON stands for. -/
  put : Json → α → Option α

def JsonForm.field {α β : Type} (form : JsonForm β) (name : String) (get : α → β)
    (set : β → α → α) : JsonField α where
  name := name
  write a := form.write (get a)
  put j a := (form.read j).map fun b => set b a

/-- The fields of a record. -/
abbrev JsonRecord (α : Type) := List (JsonField α)

namespace JsonRecord

variable {α : Type}

def write (fields : JsonRecord α) (a : α) : Json :=
  .object (fields.map fun f => (f.name, f.write a))

/-- Replaces the fields that an object has. -/
def update (fields : JsonRecord α) (a : α) (j : Json) : Option α :=
  fields.foldlM
    (fun a f =>
      match j.member? f.name with
      | some v => f.put v a
      | none => some a) a

/-- The form of a record with the given defaults for fields that are missing. -/
def form [Inhabited α] (fields : JsonRecord α) : JsonForm α where
  write := fields.write
  read := fields.update default

end JsonRecord

/-- One of several forms that values of a type have. -/
structure JsonVariant (α : Type) where
  name : String
  /-- The JSON of the content of a value that has this form. -/
  write : α → Option Json
  /-- The value of this form with a given content. -/
  read : Json → Option α

/-- The variant of the values that `make` gives, whose content `content` finds again. -/
def JsonForm.variant {α β : Type} (form : JsonForm β) (name : String) (make : β → α)
    (content : α → Option β) : JsonVariant α where
  name := name
  write a := (content a).map form.write
  read j := (form.read j).map make

/-- Values inside an object with one member. -/
def JsonForm.inside {β : Type} (form : JsonForm β) (name : String) : JsonForm β where
  write b := .object [(name, form.write b)]
  read j := (j.member? name).bind form.read

namespace JsonVariant

variable {α : Type}

/-- The form of a type with several variants: an object with one member, which names the variant.
A value of no variant is written as the word `other`. -/
def form (variants : List (JsonVariant α)) (other : String) : JsonForm α where
  write a :=
    let written := variants.findSome? fun v => (v.write a).map fun j => Json.object [(v.name, j)]
    written.getD (.text other)
  read j := variants.findSome? fun v => (j.member? v.name).bind v.read

end JsonVariant

end CodeGraph
