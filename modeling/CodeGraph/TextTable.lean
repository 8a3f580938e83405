import CodeGraph.SortedMap
import CodeGraph.Binary.InPlace

/-!
# Text tables

A text table keeps every text once, under a key. The empty text has key zero and is never stored.
New texts get keys in increasing order. Reading a stored table adds its entries to those there
are: an entry replaces the text under its key, and the replaced text is no longer found by
content.
-/

set_option autoImplicit false

namespace CodeGraph

/-- Texts by key and keys by text. -/
structure TextTable where
  texts : SortedMap TextKey String
  /-- The key under which each text is found. -/
  keys : SortedMap String TextKey
  /-- The number of the next new key. -/
  nextKey : UInt32
deriving DecidableEq, Repr

namespace TextTable

def empty : TextTable :=
  ⟨.empty, .empty, 1⟩

instance : Inhabited TextTable := ⟨empty⟩

def size (t : TextTable) : Nat :=
  t.texts.size

def isEmpty (t : TextTable) : Bool :=
  t.texts.isEmpty

def toList (t : TextTable) : List (TextKey × String) :=
  t.texts.entries

/-- The text under a key, if there is one. -/
def find? (t : TextTable) (key : TextKey) : Option String :=
  if key.isEmpty then some "" else t.texts.find? key

/-- The text under a key; an unknown key is an error. -/
def get (t : TextTable) (key : TextKey) : Except Error String :=
  match t.find? key with
  | some s => .ok s
  | none => .error (.unknownText key)

/-- The key of a text, if it is in the table. -/
def keyOf? (t : TextTable) (s : String) : Option TextKey :=
  if s.isEmpty then some .empty else t.keys.find? s

/-- The table with a text stored under a key. A text that was there before is no longer found. -/
def store (t : TextTable) (key : TextKey) (s : String) : TextTable :=
  let keys :=
    match t.texts.find? key with
    | some previous => t.keys.erase previous
    | none => t.keys
  { texts := t.texts.insert key s
    keys := keys.insert s key
    nextKey := if t.nextKey ≤ key.raw then key.raw + 1 else t.nextKey }

/-- The key of a text, and the table in which it has that key. -/
def intern (t : TextTable) (s : String) : TextKey × TextTable :=
  match t.keyOf? s with
  | some key => (key, t)
  | none =>
    let key := TextKey.mk t.nextKey
    (key, { t with nextKey := t.nextKey + 1 }.store key s)

/-- The bytes that every stored table starts with. -/
def magic : Bytes :=
  [0x53, 0x54, 0x52, 0x54, 0x42, 0x4C]

/-- The bytes of one entry: its key, the length of its text, and the text. -/
def entryBytes (entry : TextKey × String) : Bytes :=
  let spelled := Utf8.encode entry.2
  Codec.textKey.encode entry.1 ++ wordBytes 4 spelled.length ++ spelled

/-- The bytes of a table: the magic, the entries by increasing key, and the key zero. -/
def save (t : TextTable) : Bytes :=
  magic ++ t.toList.flatMap entryBytes ++ wordBytes 4 0

/-- Takes one entry, or the key zero that ends the table. -/
def readEntry : Reader (Option (TextKey × String)) := do
  let key ← Codec.textKey.decode
  if key.isEmpty then
    pure none
  else
    let length ← Reader.word 4
    let s ← Reader.text length
    pure (some (key, s))

/-- Adds the entries of a stored table; a failure keeps those that were read before it. -/
def load (t : TextTable) (input : Bytes) : Loaded TextTable :=
  match Reader.bytes magic.length input with
  | .error e => (t, .error e)
  | .ok (start, rest) =>
    if start = magic then
      InPlace.loadList readEntry (fun entry table => table.store entry.1 entry.2) t rest
    else
      (t, .error (.refused .loadTexts .missingTextTable))

end TextTable

end CodeGraph
