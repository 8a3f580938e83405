import CodeGraph.Binary.Item
import Mathlib.Data.String.Basic

/-!
# Item sequences that are read again

Items are written one after another, and a block holds the bytes of a sequence of its own. The types of
the items, with the lengths of byte strings and with the types of what each block holds, are enough to
read a written sequence: block by block from the outside, and each block's bytes to their end. What
follows the sequence is left. A text that is too long to be written leaves no trace in the bytes. Main
statement: `Item.sequence_restored`.
-/

set_option autoImplicit false

namespace CodeGraph

/-! ## Texts and their lengths -/

namespace Utf8

/-- Both lengths change at the same three characters. -/
theorem length_encodeChar (c : Char) : (encodeChar c).length = c.utf8Size := by
  unfold encodeChar Char.utf8Size
  simp only [UInt32.le_iff_toNat_le, UInt32.toNat_ofNatLT, ← Nat.lt_succ_iff,
    apply_ite List.length]
  rfl

/-- A text has as many bytes here as in its own encoding. -/
theorem length_encode (s : String) : (encode s).length = s.utf8ByteSize := by
  have spelled : ∀ cs : List Char, (cs.flatMap encodeChar).length = String.utf8Len cs := by
    intro cs
    induction cs with
    | nil => rfl
    | cons c cs ih => simp [length_encodeChar, ih, Nat.add_comm]
  rw [encode, spelled, ← String.utf8ByteSize_ofList, String.ofList_toList]

end Utf8

namespace Codec

/-- A short text is refused just if its bytes are more than two bytes can tell. -/
theorem encodeShortText_eq (s : String) :
    encodeShortText s =
      if s.utf8ByteSize ≤ 65535 then .ok (wordBytes 2 s.utf8ByteSize ++ Utf8.encode s)
      else .error (.refused .writeShortText .shortTextTooLong) := by
  rw [← Utf8.length_encode]
  rfl

/-- A lawful codec reads back what it wrote, also as another type. -/
theorem read_map {α β : Type} {c : Codec α} (lawful : c.Lawful) (make : α → β) (a : α)
    (rest : Bytes) : (make <$> c.decode) (c.encode a ++ rest) = .ok (make a, rest) := by
  rw [Reader.map_apply, lawful a rest]

end Codec

namespace Item

/-! ## Types of items -/

/-- The type of an item as its reader takes it; a block is taken as bytes. -/
def shape : Item → Shape
  | .u8 _ => .u8
  | .bool _ => .bool
  | .u16 _ => .u16
  | .u32 _ => .u32
  | .u64 _ => .u64
  | .nodeId _ => .nodeId
  | .bytes v => .bytes v.length
  | .shortText _ => .shortText
  | .block _ => .block

/-- What the reader of an item's type gives for it; a block is its bytes. -/
def value : Item → Value
  | .u8 v => .u8 v
  | .bool v => .bool v
  | .u16 v => .u16 v
  | .u32 v => .u32 v
  | .u64 v => .u64 v
  | .nodeId id? => .nodeId id?
  | .bytes v => .bytes v
  | .shortText s => .text s
  | .block items => .bytes (writeAll items).1

/-- The type of an item with the types of what its blocks hold. -/
inductive Form
  | plain (shape : Shape)
  | block (content : List Form)

mutual

def form : Item → Form
  | .block items => .block (forms items)
  | item => .plain item.shape

/-- The types of several items. -/
def forms : List Item → List Form
  | [] => []
  | item :: items => item.form :: forms items

end

/-- The item that a value is read from, unless it is a block. -/
def Value.item : Value → Item
  | .u8 v => .u8 v
  | .bool v => .bool v
  | .u16 v => .u16 v
  | .u32 v => .u32 v
  | .u64 v => .u64 v
  | .nodeId id? => .nodeId id?
  | .text s => .shortText s
  | .bytes v => .bytes v

/-- Bytes at the end of a block that no type accounts for. -/
def unread : Bytes → List Item
  | [] => []
  | b :: others => [.bytes (b :: others)]

mutual

/-- Takes an item. A block is taken as bytes, and its content is read from these. -/
def Form.read : Form → Reader Item
  | .plain shape => Value.item <$> shape.read
  | .block content => do
    let body ← Codec.decodeBlock
    match readForms content body with
    | .ok (items, left) => pure (.block (items ++ unread left))
    | .error e => Reader.fail e

/-- Takes several items in turn. -/
def readForms : List Form → Reader (List Item)
  | [] => pure []
  | form :: forms => do
    let item ← form.read
    let items ← readForms forms
    pure (item :: items)

end

/-! ## Parts and failures -/

mutual

/-- An item and what its blocks hold, at any depth. -/
def parts : Item → List Item
  | .block items => .block items :: partsIn items
  | item => [item]

/-- Several items and what their blocks hold, at any depth. -/
def partsIn : List Item → List Item
  | [] => []
  | item :: items => item.parts ++ partsIn items

end

mutual

/-- Why an item or a part of it was not written. -/
def Report.failures : Report → List Error
  | .done => []
  | .failed e => [e]
  | .block reports => failuresIn reports

/-- Why some of several items or parts of them were not written. -/
def failuresIn : List Report → List Error
  | [] => []
  | report :: reports => report.failures ++ failuresIn reports

end

/-- A short text is short enough to be written, and eight bytes can tell the size of a block, as they can
for every block that there is room for in memory. -/
def Fits : Item → Prop
  | .shortText s => s.utf8ByteSize ≤ 65535
  | .block items => (writeAll items).1.length + 8 < UInt64.size
  | _ => True

instance (item : Item) : Decidable item.Fits :=
  match item with
  | .shortText s => inferInstanceAs (Decidable (s.utf8ByteSize ≤ 65535))
  | .block items => inferInstanceAs (Decidable ((writeAll items).1.length + 8 < UInt64.size))
  | .u8 _ | .bool _ | .u16 _ | .u32 _ | .u64 _ | .nodeId _ | .bytes _ => isTrue trivial

/-- An item is a part of itself. -/
theorem mem_parts (item : Item) : item ∈ item.parts := by
  cases item <;> simp [parts]

/-! ## Texts that are written and texts that are not -/

/-- A text that is too long is not written at all. -/
theorem write_of_lt {s : String} (long : 65535 < s.utf8ByteSize) :
    write (.shortText s) = ([], .failed (.refused .writeShortText .shortTextTooLong)) := by
  simp [write, Codec.encodeShortText_eq, Nat.not_le.2 long]

/-- Items write their bytes one after another. -/
theorem writeAll_append (items others : List Item) :
    (writeAll (items ++ others)).1 = (writeAll items).1 ++ (writeAll others).1 := by
  induction items with
  | nil => rfl
  | cons item items ih => simp [writeAll, ih]

mutual

/-- An item all of whose parts fit is written without failures. -/
theorem failures_write (item : Item) (fits : ∀ part ∈ item.parts, part.Fits) :
    item.write.2.failures = [] := by
  cases item with
  | block items => exact failuresIn_writeAll items (List.forall_mem_cons.1 fits).2
  | shortText s =>
    have short : s.utf8ByteSize ≤ 65535 := fits _ (mem_parts _)
    simp [write, Codec.encodeShortText_eq, short, Report.failures]
  | _ => rfl

/-- Items that fit are all written, and so is what their blocks hold. -/
theorem failuresIn_writeAll (items : List Item) (fits : ∀ part ∈ partsIn items, part.Fits) :
    failuresIn (writeAll items).2 = [] := by
  cases items with
  | nil => rfl
  | cons item items =>
    obtain ⟨first, others⟩ := List.forall_mem_append.1 fits
    simp [writeAll, failuresIn, failures_write item first, failuresIn_writeAll items others]

end

/-! ## Reading one item -/

/-- The reader of an item's type takes the bytes of the item and gives its value. -/
theorem read_shape (item : Item) (fits : item.Fits) (rest : Bytes) :
    item.shape.read (item.write.1 ++ rest) = .ok (item.value, rest) := by
  cases item with
  | u8 v => exact Codec.read_map Codec.lawful_u8 Value.u8 v rest
  | bool v => exact Codec.read_map Codec.lawful_bool Value.bool v rest
  | u16 v => exact Codec.read_map Codec.lawful_u16 Value.u16 v rest
  | u32 v => exact Codec.read_map Codec.lawful_u32 Value.u32 v rest
  | u64 v => exact Codec.read_map Codec.lawful_u64 Value.u64 v rest
  | nodeId id? => exact Codec.read_map Codec.lawful_nodeId Value.nodeId id? rest
  | bytes v => simp [shape, Shape.read, write, value]
  | shortText s =>
    obtain ⟨bytes, written⟩ : ∃ bytes, Codec.encodeShortText s = .ok bytes :=
      ⟨_, (Codec.encodeShortText_eq s).trans (if_pos fits)⟩
    simp [shape, Shape.read, write, value, written, Codec.decodeShortText_append written rest]
  | block items => simp [shape, Shape.read, write, value, Codec.decodeBlock_append _ rest fits]

/-- An item that is no block is what its value tells. -/
theorem read_plain (item : Item) (fits : item.Fits) (plain : item.value.item = item)
    (rest : Bytes) : (Form.plain item.shape).read (item.write.1 ++ rest) = .ok (item, rest) := by
  rw [Form.read, Reader.map_apply, read_shape item fits rest]
  simp only [plain]

/-! ## Reading several items -/

mutual

/-- An item all of whose parts fit is read back from its bytes. -/
theorem read_form (item : Item) (fits : ∀ part ∈ item.parts, part.Fits) (rest : Bytes) :
    item.form.read (item.write.1 ++ rest) = .ok (item, rest) := by
  cases item with
  | block items =>
    obtain ⟨framed, inside⟩ := List.forall_mem_cons.1 fits
    -- The bytes of a block are all there is to its content, so nothing follows it.
    have content := readForms_writeAll items inside []
    rw [List.append_nil] at content
    simp [form, Form.read, write, Codec.decodeBlock_append _ rest framed, content, unread]
  | _ => exact read_plain _ (fits _ (mem_parts _)) rfl rest

/-- A written sequence is read by the types of its items, whatever follows it. -/
theorem readForms_writeAll (items : List Item) (fits : ∀ part ∈ partsIn items, part.Fits)
    (rest : Bytes) : readForms (forms items) ((writeAll items).1 ++ rest) = .ok (items, rest) := by
  cases items with
  | nil => rfl
  | cons item items =>
    obtain ⟨first, others⟩ := List.forall_mem_append.1 fits
    have here := read_form item first ((writeAll items).1 ++ rest)
    have later := readForms_writeAll items others rest
    simp [forms, readForms, writeAll, here, later]

end

/-- Blocks that are not looked into are read as their bytes. -/
theorem readAll_writeAll (items : List Item) (fits : ∀ part ∈ partsIn items, part.Fits)
    (rest : Bytes) : readAll (items.map shape) ((writeAll items).1 ++ rest) =
      items.map fun item => .ok item.value := by
  induction items with
  | nil => rfl
  | cons item items ih =>
    obtain ⟨first, others⟩ := List.forall_mem_append.1 fits
    have here := read_shape item (first _ (mem_parts _)) ((writeAll items).1 ++ rest)
    simp [readAll, writeAll, here, ih others]

/-! ## What was written -/

/-- Any sequence of items is written without a failure if its short texts, at any depth, have at most
65535 bytes and its blocks have sizes that can be told. Its bytes, whatever follows them, are read by the
types of the items: every block as bytes and its content from these, to their end. That gives the items
again and leaves what followed; without a look into the blocks it gives the values of the items. A longer
text is refused, and no byte is written for it, whatever is written before and after. -/
theorem sequence_restored :
    (∀ (items : List Item) (rest : Bytes), (∀ part ∈ partsIn items, part.Fits) →
      failuresIn (writeAll items).2 = [] ∧
      readForms (forms items) ((writeAll items).1 ++ rest) = .ok (items, rest) ∧
      readAll (items.map shape) ((writeAll items).1 ++ rest) =
        items.map fun item => .ok item.value) ∧
    (∀ s : String, 65535 < s.utf8ByteSize →
      write (.shortText s) = ([], .failed (.refused .writeShortText .shortTextTooLong)) ∧
      ∀ before later, (writeAll (before ++ .shortText s :: later)).1 =
        (writeAll (before ++ later)).1) := by
  refine ⟨fun items rest fits => ?_, fun s long => ⟨write_of_lt long, fun before later => ?_⟩⟩
  · exact ⟨failuresIn_writeAll items fits, readForms_writeAll items fits rest,
      readAll_writeAll items fits rest⟩
  · simp [writeAll_append, writeAll, write_of_lt long]

/-- Items with blocks in a block, one of which is empty. -/
def nestedItems : List Item :=
  [.u64 18446744073709551615,
    .block [.shortText "Größe", .block [], .block [.nodeId none, .bytes [0, 255], .u16 513]],
    .bool true, .shortText ""]

/-- A text of `n` letters. -/
def letters (n : Nat) : String :=
  String.ofList (List.replicate n 'a')

/-- A text of letters has one byte for each. -/
theorem utf8ByteSize_letters (n : Nat) : (letters n).utf8ByteSize = n := by
  rw [← Utf8.length_encode]
  simp [letters, Utf8.encode, Utf8.encodeChar]

/-- Those items are read again before other bytes, and a text with one letter too many is left out between
two numbers. -/
theorem sequence_restored_nested :
    (∀ part ∈ partsIn nestedItems, part.Fits) ∧
      readForms (forms nestedItems) ((writeAll nestedItems).1 ++ [7, 0]) =
        .ok (nestedItems, [7, 0]) ∧
      65535 < (letters 65536).utf8ByteSize ∧
      (writeAll [.u8 1, .shortText (letters 65536), .u8 2]).1 = [1, 2] := by
  have fits : ∀ part ∈ partsIn nestedItems, part.Fits := by decide +kernel
  have long : 65535 < (letters 65536).utf8ByteSize := by
    rw [utf8ByteSize_letters]
    decide
  obtain ⟨restored, refused⟩ := sequence_restored
  exact ⟨fits, (restored nestedItems [7, 0] fits).2.1, long,
    (refused (letters 65536) long).2 [.u8 1] [.u8 2]⟩

end Item

end CodeGraph
