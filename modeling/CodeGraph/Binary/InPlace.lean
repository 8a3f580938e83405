import CodeGraph.Binary.Codec

/-!
# Reading in place

Records are read into values that exist already, one field after another. If the bytes run out or
make no sense, the fields read before keep their new values and the others their old ones.
-/

set_option autoImplicit false

namespace CodeGraph

/-- What became of a record that was read in place, and the rest of the bytes or the failure. -/
abbrev Loaded (α : Type) := α × Except Error Bytes

namespace InPlace

variable {α β : Type}

/-- Reads values one after another into a record until the reader reports the end of the list. A
round that goes on takes bytes, so one round for each byte and one more are enough; the rounds are
counted along a byte string, which need not be measured first. -/
def loadRounds (read : Reader (Option β)) (store : β → α → α) :
    (rounds : Bytes) → α → Bytes → Loaded α
  | [], a, _ => (a, .error (.transfer .endOfData))
  | _ :: rounds, a, input =>
    match read input with
    | .error e => (a, .error e)
    | .ok (none, rest) => (a, .ok rest)
    | .ok (some b, rest) => loadRounds read store rounds (store b a) rest

/-- Reads a list of values into a record; `read` takes one value or the mark that ends the list. -/
def loadList (read : Reader (Option β)) (store : β → α → α) (a : α) (input : Bytes) : Loaded α :=
  loadRounds read store (0 :: input) a input

/-- Reads one value into a record. -/
def loadOne (read : Reader β) (store : β → α → α) (a : α) (input : Bytes) : Loaded α :=
  match read input with
  | .ok (b, rest) => (store b a, .ok rest)
  | .error e => (a, .error e)

/-- Reads into a record several times over, up to the first failure. -/
def loadTimes (load : α → Bytes → Loaded α) : Nat → α → Bytes → Loaded α
  | 0, a, input => (a, .ok input)
  | times + 1, a, input =>
    match load a input with
    | (b, .ok rest) => loadTimes load times b rest
    | (b, .error e) => (b, .error e)

/-- Reads a number and then into a record that many times. -/
def loadCounted (load : α → Bytes → Loaded α) (a : α) (input : Bytes) : Loaded α :=
  match Reader.word 4 input with
  | .ok (count, rest) => loadTimes load count a rest
  | .error e => (a, .error e)

end InPlace

namespace Loaded

variable {α β : Type}

/-- A record before any of its fields is read. -/
def start (a : α) (input : Bytes) : Loaded α :=
  (a, .ok input)

/-- Goes on where the reading stopped; nothing more is read after a failure. -/
def andThen (l : Loaded α) (load : α → Bytes → Loaded α) : Loaded α :=
  match l with
  | (a, .ok rest) => load a rest
  | (a, .error e) => (a, .error e)

/-- Goes on with the next field. -/
def field (l : Loaded α) (take : Reader β) (put : β → α → α) : Loaded α :=
  l.andThen (InPlace.loadOne take put)

/-- Goes on with a part of the record, which is read in place too. -/
def part (l : Loaded α) (load : β → Bytes → Loaded β) (get : α → β) (put : β → α → α) : Loaded α :=
  l.andThen fun a input =>
    let loaded := load (get a) input
    (put loaded.1 a, loaded.2)

end Loaded

end CodeGraph
