import CodeGraph.NodeId

/-!
# Tables indexed by node id

A table holds one entry for each position below its size, and a filling that stands for all
entries beyond. Writing beyond the size grows the table with the filling. Main statements:
`get_set_same`, `get_set_other` and `size_set` say what one write does to every entry and to the
size.
-/

set_option autoImplicit false

namespace CodeGraph

/-- Entries indexed by node id, with a filling for the ids beyond the last entry. -/
structure IdTable (α : Type) where
  items : Array α
  /-- The value of an entry that was never written. -/
  fill : α
deriving DecidableEq, Repr

namespace IdTable

variable {α : Type}

def empty (fill : α) : IdTable α :=
  ⟨#[], fill⟩

def size (t : IdTable α) : Nat :=
  t.items.size

/-- The entry of an id, if the table reaches that far. -/
def get? (t : IdTable α) (id : NodeId) : Option α :=
  t.items[id.index]?

/-- The entry of an id, or the filling beyond the last entry. -/
def get (t : IdTable α) (id : NodeId) : α :=
  (t.get? id).getD t.fill

/-- The table with at least `n` entries; new ones hold the filling. -/
def grow (t : IdTable α) (n : Nat) : IdTable α :=
  { t with items := t.items ++ Array.replicate (n - t.items.size) t.fill }

/-- The table with exactly `n` entries; new ones hold the filling. -/
def resize (t : IdTable α) (n : Nat) : IdTable α :=
  if n < t.items.size then { t with items := t.items.extract 0 n } else t.grow n

/-- The table with the entry of an id replaced, grown first if it does not reach that far. -/
def set (t : IdTable α) (id : NodeId) (value : α) : IdTable α :=
  { t with items := (t.grow (id.index + 1)).items.setIfInBounds id.index value }

/-- The table with every entry replaced by one value; the filling stays. -/
def overwrite (t : IdTable α) (value : α) : IdTable α :=
  { t with items := t.items.map fun _ => value }

/-- The table without its entries; the filling stays. -/
def clear (t : IdTable α) : IdTable α :=
  { t with items := #[] }

/-- The entries in the order of their positions. -/
def toList (t : IdTable α) : List α :=
  t.items.toList

/-- Growing never makes a table shorter. -/
@[simp] theorem size_grow (t : IdTable α) (n : Nat) : (t.grow n).size = max t.size n := by
  simp only [grow, size, Array.size_append, Array.size_replicate]
  omega

/-- A table gets the size that it is given. -/
@[simp] theorem size_resize (t : IdTable α) (n : Nat) : (t.resize n).size = n := by
  by_cases shorter : n < t.items.size
  · simp only [resize, size, if_pos shorter, Array.size_extract]
    omega
  · have grown := t.size_grow n
    simp only [size] at grown
    simp only [resize, size, if_neg shorter, grown]
    omega

/-- A write grows the table just far enough. -/
@[simp] theorem size_set (t : IdTable α) (id : NodeId) (value : α) :
    (t.set id value).size = max t.size (id.index + 1) := by
  have grown := t.size_grow (id.index + 1)
  simpa [set, size] using grown

/-- A value that was set is found. -/
@[simp] theorem get?_set_same (t : IdTable α) (id : NodeId) (value : α) :
    (t.set id value).get? id = some value := by
  have reached : id.index < (t.grow (id.index + 1)).items.size := by
    have grown := t.size_grow (id.index + 1)
    simp only [size] at grown
    omega
  simp [set, get?, reached]

/-- Beyond the old entries, a grown table holds the filling and nothing else. -/
theorem get?_grow (t : IdTable α) (n : Nat) (id : NodeId) :
    (t.grow n).get? id =
      if id.index < t.size then t.get? id else if id.index < n then some t.fill else none := by
  simp only [grow, get?, size, Array.getElem?_append, Array.getElem?_replicate]
  by_cases inside : id.index < t.items.size
  · simp [inside]
  · have shift : id.index - t.items.size < n - t.items.size ↔ id.index < n := by omega
    simp [inside, shift]

/-- Setting a value changes no other one. -/
@[simp] theorem get_set_other (t : IdTable α) {id other : NodeId} (different : other ≠ id)
    (value : α) : (t.set id value).get other = t.get other := by
  have apart : id.index ≠ other.index := fun same => different (NodeId.index_inj same.symm)
  have unchanged : (t.set id value).get? other = (t.grow (id.index + 1)).get? other := by
    simp [set, get?, apart]
  simp only [get, unchanged, get?_grow]
  by_cases inside : other.index < t.size
  · simp [inside, set]
  · have absent : t.get? other = none := by
      simpa [get?, size] using inside
    by_cases below : other.index < id.index + 1 <;> simp [inside, below, absent, set]

/-- A value that was set is what the table gives. -/
@[simp] theorem get_set_same (t : IdTable α) (id : NodeId) (value : α) :
    (t.set id value).get id = value := by
  simp [get]

end IdTable

end CodeGraph
