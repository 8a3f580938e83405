/-!
# Sorted maps

A finite map kept as a list of entries with increasing keys, so that listing it needs no sorting.
Insertion goes through the list once and replaces an entry with the same key. Main statements:
`find?_insert_same`, `find?_insert_other` and `find?_erase` describe the operations through
lookup, for every list of entries, sorted or not.
-/

set_option autoImplicit false

namespace CodeGraph

/-- A finite map whose entries are listed by increasing key. -/
structure SortedMap (κ α : Type) where
  entries : List (κ × α)
deriving DecidableEq, Repr

namespace SortedMap

variable {κ α : Type}

def empty : SortedMap κ α :=
  ⟨[]⟩

instance : Inhabited (SortedMap κ α) := ⟨empty⟩

def size (m : SortedMap κ α) : Nat :=
  m.entries.length

def isEmpty (m : SortedMap κ α) : Bool :=
  m.entries.isEmpty

/-- The value under a key in a list of entries. -/
def lookup [DecidableEq κ] (key : κ) : List (κ × α) → Option α
  | [] => none
  | (k, a) :: rest => if k = key then some a else lookup key rest

/-- The value under a key, if there is one. -/
def find? [DecidableEq κ] (m : SortedMap κ α) (key : κ) : Option α :=
  lookup key m.entries

/-- Whether there is a value under a key. -/
def contains [DecidableEq κ] (m : SortedMap κ α) (key : κ) : Bool :=
  (m.find? key).isSome

/-- The entries with one added in its place, or replaced. -/
def insertEntry [DecidableEq κ] [LT κ] [DecidableLT κ] (key : κ) (value : α) :
    List (κ × α) → List (κ × α)
  | [] => [(key, value)]
  | (k, a) :: rest =>
    if key < k then (key, value) :: (k, a) :: rest
    else if k = key then (key, value) :: rest
    else (k, a) :: insertEntry key value rest

/-- The map with the value under a key set. -/
def insert [DecidableEq κ] [LT κ] [DecidableLT κ] (m : SortedMap κ α) (key : κ) (value : α) :
    SortedMap κ α :=
  ⟨insertEntry key value m.entries⟩

def erase [DecidableEq κ] (m : SortedMap κ α) (key : κ) : SortedMap κ α :=
  ⟨m.entries.filter fun entry => !decide (entry.1 = key)⟩

section

variable [DecidableEq κ]

/-- Nothing is found in an empty map. -/
@[simp] theorem find?_empty (key : κ) : (empty : SortedMap κ α).find? key = none :=
  rfl

/-- A value that was inserted is found under its key. -/
@[simp] theorem find?_insert_same [LT κ] [DecidableLT κ] (m : SortedMap κ α) (key : κ)
    (value : α) : (m.insert key value).find? key = some value := by
  obtain ⟨entries⟩ := m
  simp only [insert, find?]
  induction entries with
  | nil => simp [insertEntry, lookup]
  | cons entry rest ih =>
    obtain ⟨k, a⟩ := entry
    simp only [insertEntry]
    split
    · simp [lookup]
    split
    · simp [lookup]
    · next different => simp [lookup, different, ih]

/-- An insertion changes nothing under other keys. -/
@[simp] theorem find?_insert_other [LT κ] [DecidableLT κ] (m : SortedMap κ α) {key other : κ}
    (different : other ≠ key) (value : α) :
    (m.insert key value).find? other = m.find? other := by
  obtain ⟨entries⟩ := m
  simp only [insert, find?]
  induction entries with
  | nil => simp [insertEntry, lookup, different.symm]
  | cons entry rest ih =>
    obtain ⟨k, a⟩ := entry
    simp only [insertEntry]
    split
    · simp [lookup, different.symm]
    split
    · next same => simp [lookup, same, different.symm]
    · simp [lookup, ih]

/-- An erasure removes what is under the key and nothing else. -/
@[simp] theorem find?_erase (m : SortedMap κ α) (key other : κ) :
    (m.erase key).find? other = if other = key then none else m.find? other := by
  obtain ⟨entries⟩ := m
  simp only [erase, find?]
  induction entries with
  | nil => simp [lookup]
  | cons entry rest ih =>
    obtain ⟨k, a⟩ := entry
    by_cases same : k = key
    · subst same
      by_cases here : other = k
      · simp [here] at ih ⊢
        exact ih
      · simp [here, Ne.symm here, lookup, ih]
    · by_cases here : k = other
      · subst here
        simp [lookup, same]
      · simp [lookup, same, here, ih]

end

end SortedMap

end CodeGraph
