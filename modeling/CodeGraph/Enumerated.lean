/-!
# Named finite enumerations

Every closed vocabulary of the graph (node kinds, edge kinds, languages, access levels, ...) is an
inductive type whose values are listed once, in a fixed order. The position of a value in that
list is its binary code, so a code is read back by looking it up in the same list. Main
statements: `Enumerated.ofCode?_code` and `Enumerated.code_of_ofCode?` say that codes and values
correspond one to one.
-/

set_option autoImplicit false

namespace CodeGraph

/-- A finite type whose values are listed without repetition, each with a name. -/
class Enumerated (α : Type) [DecidableEq α] where
  /-- The name of the vocabulary, as it appears in messages. -/
  label : String
  /-- Every value, in the order of the binary codes. -/
  all : List α
  name : α → String
  /-- The list of values is free of repetitions. -/
  nodup : all.Nodup
  complete : ∀ a, a ∈ all

namespace Enumerated

variable {α : Type} [DecidableEq α] [Enumerated α]

/-- The binary code of a value is its position in the list of all values. -/
def code (a : α) : Nat :=
  (all : List α).idxOf a

/-- The value with a given binary code, if there is one. -/
def ofCode? (n : Nat) : Option α :=
  (all : List α)[n]?

/-- The value with a given name, if there is one. -/
def ofName? (s : String) : Option α :=
  (all : List α).find? fun a => name a == s

/-- Codes are smaller than the number of values. -/
theorem code_lt_length (a : α) : code a < (all : List α).length :=
  List.idxOf_lt_length_of_mem (complete a)

/-- Looking up the code of a value gives that value back. -/
@[simp] theorem ofCode?_code (a : α) : ofCode? (code a) = some a := by
  have bound : (all : List α).idxOf a < (all : List α).length := code_lt_length a
  unfold ofCode? code
  rw [List.getElem?_eq_getElem bound, List.getElem_idxOf bound]

/-- A value found under a code has that code. -/
theorem code_of_ofCode? {n : Nat} {a : α} (found : ofCode? n = some a) : code a = n := by
  unfold ofCode? at found
  obtain ⟨bound, rfl⟩ := List.getElem?_eq_some_iff.1 found
  exact (nodup (α := α)).idxOf_getElem n bound

/-- Different values have different codes. -/
theorem code_inj {a b : α} (same : code a = code b) : a = b := by
  have found := ofCode?_code a
  rw [same, ofCode?_code] at found
  exact (Option.some.inj found).symm

end Enumerated

end CodeGraph
