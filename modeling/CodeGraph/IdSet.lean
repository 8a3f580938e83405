import CodeGraph.IdTable

/-!
# Sets of node ids

A set of node ids is a list of marks: an id is a member if the mark at its position is set. The
members are listed in increasing order. Main statements: `contains_insert`, `contains_erase` and
`contains_empty` describe the operations through membership, and `add_eq` what adding an id answers.
-/

set_option autoImplicit false

namespace CodeGraph

/-- A set of node ids. -/
structure IdSet where
  marks : Array Bool
deriving DecidableEq, Repr

namespace IdSet

def empty : IdSet :=
  ⟨#[]⟩

/-- The set without members, with room for the ids below `n`. -/
def withRoom (n : Nat) : IdSet :=
  ⟨Array.replicate n false⟩

/-- The marks as a table; an id beyond the last mark is unmarked. -/
def table (s : IdSet) : IdTable Bool :=
  ⟨s.marks, false⟩

def contains (s : IdSet) (id : NodeId) : Bool :=
  s.table.get id

def insert (s : IdSet) (id : NodeId) : IdSet :=
  ⟨(s.table.set id true).items⟩

/-- Adds an id and answers whether it is new. The room is made to reach the id first, and the answer
is read off the mark that is replaced. -/
def add (s : IdSet) (id : NodeId) : Bool × IdSet :=
  let grown := s.table.grow (id.index + 1)
  (!grown.get id, ⟨grown.items.setIfInBounds id.index true⟩)

/-- The set without one id; ids beyond the room of the set are no members to begin with. -/
def erase (s : IdSet) (id : NodeId) : IdSet :=
  ⟨s.marks.setIfInBounds id.index false⟩

/-- The set without members and without room. -/
def clear (_ : IdSet) : IdSet :=
  empty

def toList (s : IdSet) : List NodeId :=
  (List.range s.marks.size).filterMap fun i =>
    if s.marks[i]?.getD false then NodeId.ofIndex? i else none

def isEmpty (s : IdSet) : Bool :=
  s.marks.all fun mark => !mark

def size (s : IdSet) : Nat :=
  s.marks.toList.countP fun mark => mark

/-- The members in braces, with commas between. -/
def render (s : IdSet) : String :=
  "\x7b" ++ ", ".intercalate (s.toList.map NodeId.render) ++ "\x7d"

/-- The empty set has no ids. -/
@[simp] theorem contains_empty (id : NodeId) : empty.contains id = false := by
  simp [empty, contains, table, IdTable.get, IdTable.get?]

/-- A set with room has no ids yet. -/
@[simp] theorem contains_withRoom (n : Nat) (id : NodeId) : (withRoom n).contains id = false := by
  by_cases inside : id.index < n <;>
    simp [withRoom, contains, table, IdTable.get, IdTable.get?, inside]

/-- An insertion adds the given id and no other. -/
@[simp] theorem contains_insert (s : IdSet) (id other : NodeId) :
    (s.insert id).contains other = (other == id || s.contains other) := by
  have written : (s.insert id).contains other = (s.table.set id true).get other := rfl
  by_cases same : other = id
  · subst same
    simp [written]
  · rw [written, IdTable.get_set_other _ same]
    simp [same, contains]

/-- Room that is made for an id has no mark. -/
theorem add_eq (s : IdSet) (id : NodeId) : s.add id = (!s.contains id, s.insert id) := by
  have kept : (s.table.grow (id.index + 1)).get id = s.contains id := by
    unfold contains IdTable.get
    rw [IdTable.get?_grow]
    by_cases inside : id.index < s.table.size
    · simp [inside, IdTable.grow]
    · have absent : s.table.get? id = none := by
        simpa [IdTable.get?, IdTable.size] using inside
      simp [inside, absent, IdTable.grow]
  simp [add, insert, IdTable.set, kept]

/-- An erasure removes the given id and no other. -/
@[simp] theorem contains_erase (s : IdSet) (id other : NodeId) :
    (s.erase id).contains other = (other != id && s.contains other) := by
  by_cases same : other = id
  · subst same
    by_cases inside : other.index < s.marks.size <;>
      simp [erase, contains, table, IdTable.get, IdTable.get?, inside]
  · have apart : id.index ≠ other.index := fun eq => same (NodeId.index_inj eq.symm)
    simp [erase, contains, table, IdTable.get, IdTable.get?, apart, same]

/-- A cleared set has no ids. -/
@[simp] theorem contains_clear (s : IdSet) (id : NodeId) : s.clear.contains id = false :=
  contains_empty id

end IdSet

end CodeGraph
