/-!
# Node ids and text keys

A node is identified by a nonzero 32-bit number, so that zero can stand for "no node" wherever an
id is written down. Ids below two are reserved. A text is identified by a 32-bit key; key zero is
the empty text.
-/

set_option autoImplicit false

namespace CodeGraph

/-- The identifier of a node, which is never zero. -/
structure NodeId where
  raw : UInt32
  /-- Zero is no id. -/
  ne_zero : raw ≠ 0
deriving DecidableEq, Repr

namespace NodeId

instance : Inhabited NodeId := ⟨⟨1, by decide⟩⟩

/-- The id with a given number; zero gives none. -/
def ofRaw? (raw : UInt32) : Option NodeId :=
  if nonzero : raw ≠ 0 then some ⟨raw, nonzero⟩ else none

/-- The position of an id in tables indexed by id. -/
def index (id : NodeId) : Nat :=
  id.raw.toNat

/-- The id that stands for a position in a table; position zero belongs to none. -/
def ofIndex? (i : Nat) : Option NodeId :=
  ofRaw? (UInt32.ofNat i)

/-- Ids zero and one are reserved, so an id can name a node only if it is larger. -/
def isValid (id : NodeId) : Bool :=
  1 < id.raw

/-- The number of an id, in decimal. -/
protected def toString (id : NodeId) : String :=
  toString id.index

/-- The long form of an id, which says what the number is. -/
def render (id : NodeId) : String :=
  "NodeId(" ++ id.toString ++ ")"

/-- The number written for an id that may be missing: zero if it is. -/
def rawOf (id? : Option NodeId) : UInt32 :=
  match id? with
  | none => 0
  | some id => id.raw

instance : LT NodeId := ⟨fun a b => a.raw < b.raw⟩

instance : DecidableLT NodeId := fun a b => inferInstanceAs (Decidable (a.raw < b.raw))

/-- An id is told by its number. -/
theorem eq_of_raw {a b : NodeId} (same : a.raw = b.raw) : a = b := by
  cases a
  cases b
  simp_all

/-- Different ids have different indices. -/
theorem index_inj {a b : NodeId} (same : a.index = b.index) : a = b :=
  eq_of_raw (UInt32.toNat_inj.1 same)

/-- No id has the index zero. -/
theorem index_pos (id : NodeId) : 0 < id.index := by
  have nonzero : id.raw.toNat ≠ 0 := fun zero => id.ne_zero (UInt32.toNat_inj.1 zero)
  exact Nat.pos_of_ne_zero nonzero

/-- The number of an id gives the id back. -/
@[simp] theorem ofRaw?_raw (id : NodeId) : ofRaw? id.raw = some id := by
  simp [ofRaw?, id.ne_zero]

/-- Reading back the number written for an id that may be missing gives it back. -/
@[simp] theorem ofRaw?_rawOf (id? : Option NodeId) : ofRaw? (rawOf id?) = id? := by
  cases id? with
  | none => simp [rawOf, ofRaw?]
  | some id => simp [rawOf]

/-- The index of an id gives the id back. -/
@[simp] theorem ofIndex?_index (id : NodeId) : ofIndex? id.index = some id := by
  simp [ofIndex?, index]

end NodeId

/-- The key of a text in a text table. -/
structure TextKey where
  raw : UInt32
deriving DecidableEq, Repr

namespace TextKey

def empty : TextKey :=
  ⟨0⟩

instance : Inhabited TextKey := ⟨empty⟩

/-- Whether a key stands for the empty text. -/
def isEmpty (k : TextKey) : Bool :=
  k.raw == 0

/-- The number of a key, in decimal. -/
protected def toString (k : TextKey) : String :=
  toString k.raw.toNat

instance : LT TextKey := ⟨fun a b => a.raw < b.raw⟩

instance : DecidableLT TextKey := fun a b => inferInstanceAs (Decidable (a.raw < b.raw))

end TextKey

end CodeGraph
