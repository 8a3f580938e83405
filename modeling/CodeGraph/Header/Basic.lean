import CodeGraph.Header.Overrides
import CodeGraph.Header.Properties

/-!
# Headers

A header travels with a graph in its file. Properties and overrides are understood; of any other
header only the kind and the bytes are known. Such an unread header may claim any kind, but it is
never taken for properties that can be filled in.
-/

set_option autoImplicit false

namespace CodeGraph

/-- A header of a graph file. -/
inductive Header
  | properties (p : Properties)
  | overrides (o : Overrides)
  | unread (kind : HeaderKind) (content : Bytes)
deriving DecidableEq, Repr

namespace Header

/-- The kind under which a header is stored. -/
def kind : Header → HeaderKind
  | .properties _ => .properties
  | .overrides _ => .overrides
  | .unread kind _ => kind

/-- Whether a header is stored as properties. -/
def isProperties (h : Header) : Bool :=
  h.kind = .properties

/-- Fills in what the properties of a written file have to say. -/
def describe (h : Header) (language : Language) : Header :=
  match h with
  | .properties p => .properties (p.describe language)
  | h => h

def encode : Header → Except Error Bytes
  | .properties p => p.encode
  | .overrides o => .ok o.encode
  | .unread _ content => .ok (wordBytes 4 content.length ++ content)

/-- Takes the content of an unread header. -/
def readContent : Reader Bytes := do
  let length ← Reader.word 4
  Reader.bytes length

/-- Reads a header in place. What a failure leaves depends on the kind of the header. -/
def load (h : Header) (input : Bytes) : Loaded Header :=
  match h with
  | .properties p =>
    let loaded := p.load input
    (.properties loaded.1, loaded.2)
  | .overrides o =>
    let loaded := o.load input
    (.overrides loaded.1, loaded.2)
  | .unread kind content =>
    InPlace.loadOne readContent (fun content _ => .unread kind content) (.unread kind content) input

/-- Reads bytes into the first header of a kind; without one nothing happens. -/
def loadFirst (kind : HeaderKind) (input : Bytes) : List Header → List Header × Except Error Unit
  | [] => ([], .ok ())
  | h :: rest =>
    if h.kind = kind then
      let loaded := h.load input
      (loaded.1 :: rest, loaded.2.map fun _ => ())
    else
      let others := loadFirst kind input rest
      (h :: others.1, others.2)

end Header

end CodeGraph
