/-!
# Whole numbers as texts

Reads the decimal text of a whole number that fits into 32 bits: an optional sign and at least one
digit, and nothing else.
-/

set_option autoImplicit false

namespace CodeGraph

namespace Decimal

/-- The value of a list of digits after those that gave `value`. -/
def digitsValue (value : Nat) : List Char → Option Nat
  | [] => some value
  | c :: rest => if c.isDigit then digitsValue (10 * value + (c.toNat - 48)) rest else none

/-- The value of a list of digits, of which there has to be one. -/
def natural? : List Char → Option Nat
  | [] => none
  | digits => digitsValue 0 digits

/-- The value of digits behind an optional sign. -/
def signed? : List Char → Option Int
  | '-' :: digits => (natural? digits).map fun n => -(n : Int)
  | '+' :: digits => (natural? digits).map fun n => (n : Int)
  | digits => (natural? digits).map fun n => (n : Int)

/-- The value of a text, if it is a whole number that fits into 32 bits. -/
def read? (s : String) : Option Int32 :=
  match signed? s.toList with
  | some n => if -0x80000000 ≤ n ∧ n < 0x80000000 then some (Int32.ofInt n) else none
  | none => none

def write (n : Int32) : String :=
  toString n.toInt

end Decimal

end CodeGraph
