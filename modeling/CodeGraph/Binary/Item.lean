import CodeGraph.Binary.Codec

/-!
# Item sequences

Sequences of typed items: numbers, truth values, ids, byte strings, short texts, and blocks that
hold sequences again. An item that cannot be written is reported and left out; the items after it
are written all the same. Reading ends at the first item that cannot be read.
-/

set_option autoImplicit false

namespace CodeGraph

/-- An item to be written. -/
inductive Item
  | u8 (value : UInt8)
  | bool (value : Bool)
  | u16 (value : UInt16)
  | u32 (value : UInt32)
  | u64 (value : UInt64)
  | nodeId (id? : Option NodeId)
  | bytes (value : Bytes)
  | shortText (value : String)
  | block (items : List Item)

namespace Item

/-- What became of an item that was to be written. -/
inductive Report
  | done
  | failed (e : Error)
  | block (items : List Report)

mutual

/-- The bytes of an item and its report. -/
def write : Item → Bytes × Report
  | .u8 v => (Codec.u8.encode v, .done)
  | .bool v => (Codec.bool.encode v, .done)
  | .u16 v => (Codec.u16.encode v, .done)
  | .u32 v => (Codec.u32.encode v, .done)
  | .u64 v => (Codec.u64.encode v, .done)
  | .nodeId id? => (Codec.nodeId.encode id?, .done)
  | .bytes v => (v, .done)
  | .shortText s =>
    match Codec.encodeShortText s with
    | .ok bs => (bs, .done)
    | .error e => ([], .failed e)
  | .block items =>
    let inner := writeAll items
    (Codec.encodeBlock inner.1, .block inner.2)

/-- The bytes of several items, one after another, and their reports. -/
def writeAll : List Item → Bytes × List Report
  | [] => ([], [])
  | item :: items =>
    let first := write item
    let others := writeAll items
    (first.1 ++ others.1, first.2 :: others.2)

end

/-- The type of an item to be read; byte strings and texts come with their length. -/
inductive Shape
  | u8
  | bool
  | u16
  | u32
  | u64
  | nodeId
  | shortText
  | block
  | bytes (length : Nat)
  | text (length : Nat)
deriving DecidableEq, Repr

/-- The value of an item that was read. -/
inductive Value
  | u8 (value : UInt8)
  | bool (value : Bool)
  | u16 (value : UInt16)
  | u32 (value : UInt32)
  | u64 (value : UInt64)
  | nodeId (id? : Option NodeId)
  | text (value : String)
  | bytes (value : Bytes)
deriving DecidableEq, Repr

/-- Takes an item of a given type. -/
def Shape.read : Shape → Reader Value
  | .u8 => Value.u8 <$> Codec.u8.decode
  | .bool => Value.bool <$> Codec.bool.decode
  | .u16 => Value.u16 <$> Codec.u16.decode
  | .u32 => Value.u32 <$> Codec.u32.decode
  | .u64 => Value.u64 <$> Codec.u64.decode
  | .nodeId => Value.nodeId <$> Codec.nodeId.decode
  | .shortText => Value.text <$> Codec.decodeShortText
  | .block => Value.bytes <$> Codec.decodeBlock
  | .bytes n => Value.bytes <$> Reader.bytes n
  | .text n => Value.text <$> Reader.text n

/-- Takes items of the given types in turn and ends with the first failure, if there is one. -/
def readAll : List Shape → Bytes → List (Except Error Value)
  | [], _ => []
  | shape :: shapes, input =>
    match shape.read input with
    | .ok (value, rest) => .ok value :: readAll shapes rest
    | .error e => [.error e]

end Item

end CodeGraph
