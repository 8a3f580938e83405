import CodeGraph.Binary.Codec

/-!
# Sinks

A sink collects written bytes. It may take only so many bytes, and it remembers the first failure:
once it has failed it takes nothing more. So a program that writes can go on without asking, and
the outcome is read off the sink at the end.
-/

set_option autoImplicit false

namespace CodeGraph

/-- Where bytes are written to. -/
structure Sink where
  /-- The bytes written so far, the last one first. -/
  reversed : Bytes := []
  /-- The number of bytes it still takes; without a number it takes any. -/
  room : Option Nat := none
  fault : Option Error := none
deriving DecidableEq, Repr

namespace Sink

/-- The bytes written so far, in order. -/
def written (s : Sink) : Bytes :=
  s.reversed.reverse

/-- A sink that takes any number of bytes. -/
def unlimited : Sink :=
  {}

/-- A sink that takes `n` bytes and then fails. -/
def limited (n : Nat) : Sink :=
  { room := some n }

def isOk (s : Sink) : Bool :=
  s.fault.isNone

/-- Writes bytes, as far as there is room; a failed sink takes none. -/
def put (s : Sink) (bytes : Bytes) : Sink :=
  match s.fault, s.room with
  | some _, _ => s
  | none, none => { s with reversed := bytes.reverse ++ s.reversed }
  | none, some n =>
    if bytes.length ≤ n then
      { s with reversed := bytes.reverse ++ s.reversed, room := some (n - bytes.length) }
    else
      { s with
        reversed := (bytes.take n).reverse ++ s.reversed
        room := some 0
        fault := some (.transfer .sinkFull) }

/-- Records that what was to be written cannot be; an earlier failure stays. -/
def refuse (s : Sink) (e : Error) : Sink :=
  match s.fault with
  | some _ => s
  | none => { s with fault := some e }

/-- Writes what could be encoded, or records why it could not. -/
def putResult (s : Sink) (bytes : Except Error Bytes) : Sink :=
  match bytes with
  | .ok bs => s.put bs
  | .error e => s.refuse e

/-- The outcome of all writing so far. -/
def outcome (s : Sink) : Except Error Unit :=
  match s.fault with
  | some e => .error e
  | none => .ok ()

/-- Bytes may be put in two parts. -/
theorem put_append (s : Sink) (a b : Bytes) : s.put (a ++ b) = (s.put a).put b := by
  obtain ⟨reversed, room, fault⟩ := s
  cases fault with
  | some e => rfl
  | none =>
    cases room with
    | none => simp [put]
    | some n =>
      by_cases fitsA : a.length ≤ n
      · by_cases fitsB : b.length ≤ n - a.length
        · have fits : a.length + b.length ≤ n := by omega
          have left : n - a.length - b.length = n - (a.length + b.length) := by omega
          simp [put, fitsA, fitsB, fits, left]
        · have tooLong : ¬ a.length + b.length ≤ n := by omega
          simp [put, fitsA, fitsB, tooLong, List.take_append, List.take_of_length_le fitsA]
      · have tooLong : ¬ a.length + b.length ≤ n := by omega
        have none : n - a.length = 0 := by omega
        simp [put, fitsA, tooLong, List.take_append, none]

/-- A sink without a limit takes all bytes. -/
@[simp] theorem written_put_unlimited (bytes : Bytes) :
    (unlimited.put bytes).written = bytes := by
  simp [unlimited, put, written]

end Sink

end CodeGraph
