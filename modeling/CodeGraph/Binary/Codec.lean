import CodeGraph.Binary.Utf8

/-!
# Readers and codecs

A reader takes a value off the front of a byte string and leaves the rest, or fails. A codec pairs
a reader with the way its values are written. Numbers are written with the least significant byte
first. Main statements: `Codec.Lawful` says that a codec reads back what it wrote and leaves what
followed; the codecs of this module are lawful.
-/

set_option autoImplicit false

namespace CodeGraph

/-- A reader takes a value off the front of a byte string. -/
abbrev Reader := StateT Bytes (Except Error)

namespace Reader

def fail {α : Type} (e : Error) : Reader α :=
  fun _ => .error e

def byte : Reader UInt8
  | [] => .error (.transfer .endOfData)
  | b :: rest => .ok (b, rest)

def bytes (n : Nat) : Reader Bytes := fun input =>
  let taken := input.take n
  if taken.length = n then .ok (taken, input.drop n)
  else .error (.transfer (.shortRead n taken.length))

/-- Takes a number that was written in `width` bytes. -/
def word : Nat → Reader Nat
  | 0 => pure 0
  | width + 1 => do
    let b ← byte
    let high ← word width
    pure (b.toNat + 256 * high)

/-- Takes a text that was written in `n` bytes. -/
def text (n : Nat) : Reader String := do
  let spelled ← bytes n
  match Utf8.decode spelled with
  | .ok s => pure s
  | .error cause => fail (.transfer cause)

/-- A reader that gives a value outright takes no bytes. -/
@[simp] theorem pure_apply {α : Type} (a : α) (input : Bytes) :
    (pure a : Reader α) input = .ok (a, input) :=
  rfl

/-- A reader goes on where the one before it stopped, and stops where that one failed. -/
@[simp] theorem bind_apply {α β : Type} (r : Reader α) (f : α → Reader β) (input : Bytes) :
    (r >>= f) input =
      match r input with
      | .ok (a, rest) => f a rest
      | .error e => .error e := by
  cases h : r input <;> simp [bind, StateT.bind, Except.bind, h]

/-- Converting the value of a reader changes neither what it reads nor when it fails. -/
@[simp] theorem map_apply {α β : Type} (f : α → β) (r : Reader α) (input : Bytes) :
    (f <$> r) input =
      match r input with
      | .ok (a, rest) => .ok (f a, rest)
      | .error e => .error e := by
  cases h : r input <;>
    simp [Functor.map, StateT.map, bind, Except.bind, pure, Except.pure, h]

/-- One byte is taken off the front. -/
@[simp] theorem byte_cons (b : UInt8) (rest : Bytes) : byte (b :: rest) = .ok (b, rest) :=
  rfl

/-- No byte can be taken where none is left. -/
@[simp] theorem byte_nil : byte [] = .error (.transfer .endOfData) :=
  rfl

/-- As many bytes as were written can be taken. -/
@[simp] theorem bytes_append (written rest : Bytes) :
    bytes written.length (written ++ rest) = .ok (written, rest) := by
  simp [bytes]

/-- Fewer bytes than asked for are never taken. -/
theorem bytes_of_lt {n : Nat} {input : Bytes} (short : input.length < n) :
    bytes n input = .error (.transfer (.shortRead n input.length)) := by
  have all : input.take n = input := List.take_of_length_le (Nat.le_of_lt short)
  have wrong : input.length ≠ n := by omega
  simp [bytes, all, wrong]

end Reader

/-- The `width` low bytes of a number, the least significant one first. -/
def wordBytes : Nat → Nat → Bytes
  | 0, _ => []
  | width + 1, n => UInt8.ofNat n :: wordBytes width (n / 256)

/-- The number of words of a width. -/
def wordRange : Nat → Nat
  | 0 => 1
  | width + 1 => 256 * wordRange width

/-- A word takes as many bytes as its width says. -/
@[simp] theorem length_wordBytes (width n : Nat) : (wordBytes width n).length = width := by
  induction width generalizing n with
  | zero => rfl
  | succ width ih => simp [wordBytes, ih]

/-- A written word reads back up to the range of its width, whatever follows it. -/
@[simp] theorem Reader.word_wordBytes (width n : Nat) (rest : Bytes) :
    Reader.word width (wordBytes width n ++ rest) = .ok (n % wordRange width, rest) := by
  induction width generalizing n with
  | zero => simp [Reader.word, wordBytes, wordRange, Nat.mod_one]
  | succ width ih =>
    have low : (UInt8.ofNat n).toNat = n % 256 := by simp [UInt8.toNat_ofNat']
    have split : n % wordRange (width + 1) = n % 256 + 256 * (n / 256 % wordRange width) :=
      Nat.mod_mul
    simp [Reader.word, wordBytes, ih, low, split]

/-- A way to write values as bytes and to read them back. -/
structure Codec (α : Type) where
  encode : α → Bytes
  /-- Takes a value off the front of a byte string. -/
  decode : Reader α

namespace Codec

variable {α β : Type}

/-- A codec is lawful if it reads back every value it wrote and leaves what followed. -/
def Lawful (c : Codec α) : Prop :=
  ∀ a rest, c.decode (c.encode a ++ rest) = .ok (a, rest)

def u8 : Codec UInt8 where
  encode v := [v]
  decode := Reader.byte

/-- A truth value in one byte; every byte but zero reads as true. -/
def bool : Codec Bool where
  encode v := [if v then 1 else 0]
  decode := do
    let b ← Reader.byte
    pure (b != 0)

def u16 : Codec UInt16 where
  encode v := wordBytes 2 v.toNat
  decode := UInt16.ofNat <$> Reader.word 2

def u32 : Codec UInt32 where
  encode v := wordBytes 4 v.toNat
  decode := UInt32.ofNat <$> Reader.word 4

def u64 : Codec UInt64 where
  encode v := wordBytes 8 v.toNat
  decode := UInt64.ofNat <$> Reader.word 8

/-- An id that may be missing, with zero for a missing one. -/
def nodeId : Codec (Option NodeId) where
  encode id? := u32.encode (NodeId.rawOf id?)
  decode := NodeId.ofRaw? <$> u32.decode

def textKey : Codec TextKey where
  encode k := u32.encode k.raw
  decode := TextKey.mk <$> u32.decode

/-- A value of a vocabulary, by its code in one byte. -/
def enumerated (α : Type) [DecidableEq α] [Enumerated α] : Codec α where
  encode a := [UInt8.ofNat (Enumerated.code a)]
  decode := do
    let code ← Reader.byte
    match (Enumerated.ofCode? code.toNat : Option α) with
    | some a => pure a
    | none => Reader.fail (.refused .loadValue (.unknownCode (Enumerated.label α) code))

def pair (first : Codec α) (second : Codec β) : Codec (α × β) where
  encode v := first.encode v.1 ++ second.encode v.2
  decode := do
    let a ← first.decode
    let b ← second.decode
    pure (a, b)

/-- Texts longer than this many bytes are not written as short texts. -/
def shortTextLimit : Nat :=
  65535

/-- A short text is preceded by its length in two bytes; longer texts are refused. -/
def encodeShortText (s : String) : Except Error Bytes :=
  let spelled := Utf8.encode s
  if spelled.length ≤ shortTextLimit then
    .ok (wordBytes 2 spelled.length ++ spelled)
  else
    .error (.refused .writeShortText .shortTextTooLong)

def decodeShortText : Reader String := do
  let n ← Reader.word 2
  Reader.text n

/-- A block is preceded by its size in eight bytes, which counts those eight bytes too. -/
def encodeBlock (body : Bytes) : Bytes :=
  wordBytes 8 (body.length + 8) ++ body

def decodeBlock : Reader Bytes := do
  let size ← Reader.word 8
  if size < 8 then
    Reader.fail (.refused .readBlock (.blockSize size))
  else
    Reader.bytes (size - 8)

/-- Bytes are read back. -/
theorem lawful_u8 : u8.Lawful := fun _ _ => rfl

/-- Truth values are read back. -/
theorem lawful_bool : bool.Lawful := by
  intro a rest
  cases a <;> simp [bool]

/-- Numbers of two bytes are read back. -/
theorem lawful_u16 : u16.Lawful := by
  intro a rest
  have small := a.toNat_lt
  simp [u16, wordRange, Nat.mod_eq_of_lt small]

/-- Numbers of four bytes are read back. -/
theorem lawful_u32 : u32.Lawful := by
  intro a rest
  have small := a.toNat_lt
  simp [u32, wordRange, Nat.mod_eq_of_lt small]

/-- Numbers of eight bytes are read back. -/
theorem lawful_u64 : u64.Lawful := by
  intro a rest
  have small := a.toNat_lt
  simp [u64, wordRange, Nat.mod_eq_of_lt small]

/-- Ids are read back, and so is a missing one. -/
theorem lawful_nodeId : nodeId.Lawful := by
  intro a rest
  simp [nodeId, lawful_u32 _ rest]

/-- Keys of texts are read back. -/
theorem lawful_textKey : textKey.Lawful := by
  intro a rest
  simp [textKey, lawful_u32 _ rest]

/-- Values of a vocabulary of at most 256 values are lawful. -/
theorem lawful_enumerated (α : Type) [DecidableEq α] [Enumerated α]
    (few : (Enumerated.all : List α).length ≤ 256) : (enumerated α).Lawful := by
  intro a rest
  have small : Enumerated.code a < 256 := Nat.lt_of_lt_of_le (Enumerated.code_lt_length a) few
  simp [enumerated, Utf8.toNat_byte small]

/-- One lawful codec after another is lawful. -/
theorem lawful_pair {first : Codec α} {second : Codec β} (hfirst : first.Lawful)
    (hsecond : second.Lawful) : (pair first second).Lawful := by
  intro a rest
  simp [pair, hfirst a.1, hsecond a.2]

/-- A text that is short enough reads back, and what followed is left. -/
theorem decodeShortText_append {s : String} {written : Bytes}
    (short : encodeShortText s = .ok written) (rest : Bytes) :
    decodeShortText (written ++ rest) = .ok (s, rest) := by
  simp only [encodeShortText] at short
  split at short
  · next fits =>
    cases short
    have small : (Utf8.encode s).length % 65536 = (Utf8.encode s).length :=
      Nat.mod_eq_of_lt (by simp only [shortTextLimit] at fits; omega)
    simp [decodeShortText, Reader.text, wordRange, small]
  · cases short

/-- A block reads back, and what followed is left. -/
theorem decodeBlock_append (body rest : Bytes) (small : body.length + 8 < UInt64.size) :
    decodeBlock (encodeBlock body ++ rest) = .ok (body, rest) := by
  have counted : ¬ body.length + 8 < 8 := by omega
  have kept : (body.length + 8) % 18446744073709551616 = body.length + 8 :=
    Nat.mod_eq_of_lt small
  simp [decodeBlock, encodeBlock, wordRange, kept, counted]

end Codec

end CodeGraph
