import CodeGraph.Header.Basic

/-!
# Header records

A graph file starts with four bytes that tell it apart, and then has a number of header records. A
record is the code of a header kind and a block with the bytes of the header. Since blocks tell
their size, records of unknown kinds, and those that nobody asks for, can be skipped.
-/

set_option autoImplicit false

namespace CodeGraph

namespace GraphFile

/-- The bytes that every graph file starts with. -/
def magic : Bytes :=
  [0x63, 0x73, 0x69, 0x00]

/-- What reading the header records has found so far. -/
structure HeaderScan where
  /-- The headers of the caller, into which records are read. -/
  headers : List Header
  /-- The properties of the file; of several records the last one counts. -/
  properties : Option Properties := none
deriving DecidableEq, Repr

namespace HeaderScan

/-- Takes a record into account: properties are read for the file itself, and the first header of
the caller that is of the same kind reads it too. -/
def take (scan : HeaderScan) (kind : HeaderKind) (body : Bytes) : HeaderScan × Except Error Unit :=
  if kind = .properties then
    match Properties.empty.load body with
    | (_, .error e) => (scan, .error e)
    | (p, .ok _) =>
      let read := Header.loadFirst kind body scan.headers
      (⟨read.1, some p⟩, read.2)
  else
    let read := Header.loadFirst kind body scan.headers
    ({ scan with headers := read.1 }, read.2)

end HeaderScan

/-- Takes the code of a kind and a block. -/
def readRecord : Reader (Nat × Bytes) := do
  let code ← Reader.word 2
  let body ← Codec.decodeBlock
  pure (code, body)

/-- Reads one record; a record of an unknown kind is skipped. -/
def loadRecord (scan : HeaderScan) (input : Bytes) : Loaded HeaderScan :=
  match readRecord input with
  | .error e => (scan, .error e)
  | .ok ((code, body), rest) =>
    match Enumerated.ofCode? code with
    | none => (scan, .ok rest)
    | some kind =>
      let taken := scan.take kind body
      (taken.1, taken.2.map fun _ => rest)

def loadHeaders (headers : List Header) (input : Bytes) : Loaded HeaderScan :=
  InPlace.loadCounted loadRecord { headers } input

end GraphFile

end CodeGraph
