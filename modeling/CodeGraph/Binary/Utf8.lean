import CodeGraph.Error

/-!
# Texts as bytes

A text is written as the UTF-8 bytes of its characters. Reading goes through the bytes once, from
left to right; it refuses a byte that cannot continue the sequence begun so far, and a text that
ends inside a sequence, and says where that sequence began. Overlong forms, surrogates and codes
beyond the last code point are refused by the range of the second byte. Main statement:
`decode_encode` says that every written text reads back.
-/

set_option autoImplicit false

namespace CodeGraph

/-- A string of bytes. -/
abbrev Bytes := List UInt8

namespace Utf8

/-- The bytes of one character, the leading one first. -/
def encodeChar (c : Char) : Bytes :=
  let n := c.toNat
  if n < 0x80 then
    [UInt8.ofNat n]
  else if n < 0x800 then
    [UInt8.ofNat (0xC0 + n / 64), UInt8.ofNat (0x80 + n % 64)]
  else if n < 0x10000 then
    [UInt8.ofNat (0xE0 + n / 4096), UInt8.ofNat (0x80 + n / 64 % 64), UInt8.ofNat (0x80 + n % 64)]
  else
    [UInt8.ofNat (0xF0 + n / 262144), UInt8.ofNat (0x80 + n / 4096 % 64),
      UInt8.ofNat (0x80 + n / 64 % 64), UInt8.ofNat (0x80 + n % 64)]

/-- The bytes of a text. -/
def encode (s : String) : Bytes :=
  s.toList.flatMap encodeChar

/-- A sequence of which some bytes have been read and some are still owed. -/
structure Pending where
  /-- The position of its leading byte. -/
  start : Nat
  /-- The number of bytes read so far. -/
  seen : Nat
  /-- The number of bytes still owed. -/
  owed : Nat
  /-- The least value that the next byte may have. -/
  low : Nat
  /-- The greatest value that the next byte may have. -/
  high : Nat
  /-- The code read so far. -/
  code : Nat
deriving DecidableEq, Repr

/-- The sequence that a leading byte of a longer form begins at `start`, if it is one. -/
def begin? (start lead : Nat) : Option Pending :=
  if 0xC2 ≤ lead ∧ lead ≤ 0xDF then some ⟨start, 1, 1, 0x80, 0xBF, lead - 0xC0⟩
  else if lead = 0xE0 then some ⟨start, 1, 2, 0xA0, 0xBF, 0⟩
  else if lead = 0xED then some ⟨start, 1, 2, 0x80, 0x9F, 0xD⟩
  else if 0xE1 ≤ lead ∧ lead ≤ 0xEF then some ⟨start, 1, 2, 0x80, 0xBF, lead - 0xE0⟩
  else if lead = 0xF0 then some ⟨start, 1, 3, 0x90, 0xBF, 0⟩
  else if 0xF1 ≤ lead ∧ lead ≤ 0xF3 then some ⟨start, 1, 3, 0x80, 0xBF, lead - 0xF0⟩
  else if lead = 0xF4 then some ⟨start, 1, 3, 0x80, 0x8F, 4⟩
  else none

/-- Reads the bytes from position `index` on. `pending` is the sequence begun before that position
and `done` are the characters read before it, the last one first. -/
def decodeFrom (index : Nat) (pending : Option Pending) (done : List Char) :
    Bytes → Except TransferError (List Char)
  | [] =>
    match pending with
    | none => .ok done.reverse
    | some p => .error (.truncatedText p.start)
  | b :: rest =>
    match pending with
    | none =>
      if b.toNat < 0x80 then
        decodeFrom (index + 1) none (Char.ofNat b.toNat :: done) rest
      else
        match begin? index b.toNat with
        | none => .error (.malformedText 1 index)
        | some p => decodeFrom (index + 1) (some p) done rest
    | some p =>
      if p.low ≤ b.toNat ∧ b.toNat ≤ p.high then
        let code := p.code * 64 + b.toNat % 64
        if p.owed = 1 then
          decodeFrom (index + 1) none (Char.ofNat code :: done) rest
        else
          let next :=
            { p with seen := p.seen + 1, owed := p.owed - 1, low := 0x80, high := 0xBF, code }
          decodeFrom (index + 1) (some next) done rest
      else
        .error (.malformedText p.seen p.start)

/-- The text that a byte string spells, or why it spells none. -/
def decode (bytes : Bytes) : Except TransferError String :=
  match decodeFrom 0 none [] bytes with
  | .ok chars => .ok (String.ofList chars)
  | .error cause => .error cause

/-- A number below 256 is not changed by storing it in a byte. -/
theorem toNat_byte {n : Nat} (small : n < 256) : (UInt8.ofNat n).toNat = n := by
  simp only [UInt8.toNat_ofNat']
  omega

/-- A leading byte of a longer form begins a pending sequence. -/
theorem decodeFrom_lead {index lead : Nat} {p : Pending} (done : List Char) (rest : Bytes)
    (small : lead < 256) (large : 0x80 ≤ lead) (begun : begin? index lead = some p) :
    decodeFrom index none done (UInt8.ofNat lead :: rest) =
      decodeFrom (index + 1) (some p) done rest := by
  have notAscii : ¬ lead < 0x80 := by omega
  simp [decodeFrom, toNat_byte small, notAscii, begun]

/-- A following byte in range that is not the last one moves the pending sequence on. -/
theorem decodeFrom_middle {index b : Nat} {p : Pending} (done : List Char) (rest : Bytes)
    (small : b < 256) (low : p.low ≤ b) (high : b ≤ p.high) (more : p.owed ≠ 1) :
    decodeFrom index (some p) done (UInt8.ofNat b :: rest) =
      decodeFrom (index + 1)
        (some ⟨p.start, p.seen + 1, p.owed - 1, 0x80, 0xBF, p.code * 64 + b % 64⟩) done rest := by
  simp [decodeFrom, toNat_byte small, low, high, more]

/-- The last byte of a pending sequence completes a character. -/
theorem decodeFrom_last {index b : Nat} {p : Pending} (done : List Char) (rest : Bytes)
    (small : b < 256) (low : p.low ≤ b) (high : b ≤ p.high) (last : p.owed = 1) :
    decodeFrom index (some p) done (UInt8.ofNat b :: rest) =
      decodeFrom (index + 1) none (Char.ofNat (p.code * 64 + b % 64) :: done) rest := by
  simp [decodeFrom, toNat_byte small, low, high, last]

/-- The bytes of a character read back as that character, whatever follows them. -/
theorem decodeFrom_encodeChar (index : Nat) (done : List Char) (c : Char) (rest : Bytes) :
    decodeFrom index none done (encodeChar c ++ rest) =
      decodeFrom (index + (encodeChar c).length) none (c :: done) rest := by
  have scalar : c.toNat < 0xD800 ∨ 0xDFFF < c.toNat ∧ c.toNat < 0x110000 := c.valid
  have back : Char.ofNat c.toNat = c := Char.ofNat_toNat c
  unfold encodeChar
  simp only
  generalize c.toNat = n at scalar back
  split
  · next ascii =>
    simp [decodeFrom, toNat_byte (show n < 256 by omega), ascii, back]
  split
  · next _ two =>
    have begun : begin? index (0xC0 + n / 64) = some ⟨index, 1, 1, 0x80, 0xBF, n / 64⟩ := by
      simp only [begin?]
      rw [if_pos (by omega)]
      simp
    have code : n / 64 * 64 + (0x80 + n % 64) % 64 = n := by omega
    simp only [List.cons_append, List.nil_append, List.length_cons, List.length_nil]
    rw [decodeFrom_lead done _ (by omega) (by omega) begun,
      decodeFrom_last done rest (by omega) (by simp only; omega) (by simp only; omega) rfl]
    simp only [code, back]
  split
  · next _ _ three =>
    have begun : ∃ p : Pending, begin? index (0xE0 + n / 4096) = some p ∧ p.owed = 2 ∧
        p.code = n / 4096 ∧ p.low ≤ 0x80 + n / 64 % 64 ∧ 0x80 + n / 64 % 64 ≤ p.high := by
      simp only [begin?]
      rw [if_neg (by omega)]
      split
      · exact ⟨_, rfl, rfl, by simp only; omega, by simp only; omega, by simp only; omega⟩
      split
      · exact ⟨_, rfl, rfl, by simp only; omega, by simp only; omega, by simp only; omega⟩
      rw [if_pos (by omega)]
      exact ⟨_, rfl, rfl, by simp only; omega, by simp only; omega, by simp only; omega⟩
    obtain ⟨p, begun, owed, code, low, high⟩ := begun
    have value : (p.code * 64 + (0x80 + n / 64 % 64) % 64) * 64 + (0x80 + n % 64) % 64 = n := by
      omega
    simp only [List.cons_append, List.nil_append, List.length_cons, List.length_nil]
    rw [decodeFrom_lead done _ (by omega) (by omega) begun,
      decodeFrom_middle done _ (by omega) low high (by omega),
      decodeFrom_last done rest (by omega) (by simp only; omega) (by simp only; omega)
        (by simp only [owed])]
    simp only [value, back]
  · next _ _ four =>
    have begun : ∃ p : Pending, begin? index (0xF0 + n / 262144) = some p ∧ p.owed = 3 ∧
        p.code = n / 262144 ∧ p.low ≤ 0x80 + n / 4096 % 64 ∧ 0x80 + n / 4096 % 64 ≤ p.high := by
      simp only [begin?]
      rw [if_neg (by omega), if_neg (by omega), if_neg (by omega), if_neg (by omega)]
      split
      · exact ⟨_, rfl, rfl, by simp only; omega, by simp only; omega, by simp only; omega⟩
      split
      · exact ⟨_, rfl, rfl, by simp only; omega, by simp only; omega, by simp only; omega⟩
      rw [if_pos (by omega)]
      exact ⟨_, rfl, rfl, by simp only; omega, by simp only; omega, by simp only; omega⟩
    obtain ⟨p, begun, owed, code, low, high⟩ := begun
    have value : ((p.code * 64 + (0x80 + n / 4096 % 64) % 64) * 64 +
        (0x80 + n / 64 % 64) % 64) * 64 + (0x80 + n % 64) % 64 = n := by
      omega
    simp only [List.cons_append, List.nil_append, List.length_cons, List.length_nil]
    rw [decodeFrom_lead done _ (by omega) (by omega) begun,
      decodeFrom_middle done _ (by omega) low high (by omega),
      decodeFrom_middle done _ (by omega) (by simp only; omega) (by simp only; omega)
        (by simp only [owed]; omega),
      decodeFrom_last done rest (by omega) (by simp only; omega) (by simp only; omega)
        (by simp only [owed])]
    simp only [value, back]

/-- Written characters read back in order, after those already read. -/
theorem decodeFrom_flatMap (cs : List Char) (index : Nat) (done : List Char) :
    decodeFrom index none done (cs.flatMap encodeChar) = .ok (done.reverse ++ cs) := by
  induction cs generalizing index done with
  | nil => simp [decodeFrom]
  | cons c cs ih =>
    rw [List.flatMap_cons, decodeFrom_encodeChar, ih]
    simp

/-- Every written text reads back. -/
@[simp] theorem decode_encode (s : String) : decode (encode s) = .ok s := by
  simp [decode, encode, decodeFrom_flatMap]

end Utf8

end CodeGraph
