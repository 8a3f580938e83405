import CodeGraph.SortedMap
import CodeGraph.Binary.InPlace
import CodeGraph.Header.Decimal
import CodeGraph.Schema.Values

/-!
# Properties

The properties of a graph file are texts under texts. Four of them are filled in whenever a file
is written: what kind of file it is, two version numbers, and the language of the graph. A file is
accepted only if the first three have exactly the values that are written.
-/

set_option autoImplicit false

namespace CodeGraph

/-- Texts under texts. -/
structure Properties where
  values : SortedMap String String
deriving DecidableEq, Repr

namespace Properties

def empty : Properties :=
  ⟨.empty⟩

instance : Inhabited Properties := ⟨empty⟩

def size (p : Properties) : Nat :=
  p.values.size

def toList (p : Properties) : List (String × String) :=
  p.values.entries

def get? (p : Properties) (key : String) : Option String :=
  p.values.find? key

def set (p : Properties) (key value : String) : Properties :=
  ⟨p.values.insert key value⟩

/-- Sets a property unless it is there, and says whether it did. -/
def add (p : Properties) (key value : String) : Bool × Properties :=
  match p.get? key with
  | some _ => (false, p)
  | none => (true, p.set key value)

def flagText (flag : Bool) : String :=
  if flag then "1" else "0"

/-- Adds a property that is a truth value. -/
def addFlag (p : Properties) (key : String) (flag : Bool) : Bool × Properties :=
  p.add key (flagText flag)

/-- Adds a property that is a number. -/
def addNumber (p : Properties) (key : String) (n : Int32) : Bool × Properties :=
  p.add key (Decimal.write n)

/-- The value of a property as a truth value; every text but one is false. -/
def getFlag? (p : Properties) (key : String) : Option Bool :=
  (p.get? key).map fun value => value == flagText true

/-- The value of a property as a number, if it is one. -/
def getNumber? (p : Properties) (key : String) : Option Int32 :=
  (p.get? key).bind Decimal.read?

/-- The property that tells the kind of the file. -/
def typeKey : String :=
  "Type"

/-- The property that tells the version of the interface that wrote the file. -/
def apiVersionKey : String :=
  "APIVersion"

/-- The property that tells the version of the layout of the file. -/
def binaryVersionKey : String :=
  "BinaryVersion"

/-- The property that tells the language of the graph. -/
def languageKey : String :=
  "Language"

def fileType : String :=
  "LanguageIndependentModel"

/-- The version of the interface that is written and accepted. -/
def apiVersion : String :=
  "2.0.21"

/-- The version of the layout that is written and accepted. -/
def binaryVersion : String :=
  "2.0.21"

/-- Fills in the four properties of a file that is written. -/
def describe (p : Properties) (language : Language) : Properties :=
  (((p.set typeKey fileType).set apiVersionKey apiVersion).set binaryVersionKey binaryVersion).set
    languageKey (toString (Enumerated.code language))

/-- Compares a property with the value it has to have. -/
def checkValue (p : Properties) (key expected : String) (missing wrong : FileVerdict) :
    List FileVerdict :=
  match p.get? key with
  | none => [missing]
  | some value => if value = expected then [] else [wrong]

/-- What is wrong with the properties of a file. -/
def problems (p : Properties) : List FileVerdict :=
  p.checkValue typeKey fileType .missingFileType .wrongFileType ++
    p.checkValue apiVersionKey apiVersion .missingApiVersion .wrongApiVersion ++
    p.checkValue binaryVersionKey binaryVersion .missingBinaryVersion .wrongBinaryVersion

/-- The language that the properties tell, if they tell one. -/
def language? (p : Properties) : Option Language :=
  match p.getNumber? languageKey with
  | some n => if 0 ≤ n.toInt then Enumerated.ofCode? n.toInt.toNat else none
  | none => none

/-- The bytes of several properties; both texts of each have to be short. -/
def encodeEntries : List (String × String) → Except Error Bytes
  | [] => .ok []
  | (key, value) :: rest => do
    let keyBytes ← Codec.encodeShortText key
    let valueBytes ← Codec.encodeShortText value
    let others ← encodeEntries rest
    pure (keyBytes ++ valueBytes ++ others)

/-- The bytes of the properties: their number, and then each key with its value. -/
def encode (p : Properties) : Except Error Bytes :=
  (encodeEntries p.toList).map fun body => wordBytes 4 p.size ++ body

def readEntry : Reader (String × String) := do
  let key ← Codec.decodeShortText
  let value ← Codec.decodeShortText
  pure (key, value)

/-- Sets the stored properties; a failure keeps those that were read before it. -/
def load (p : Properties) (input : Bytes) : Loaded Properties :=
  InPlace.loadCounted (InPlace.loadOne readEntry fun entry p => p.set entry.1 entry.2) p input

end Properties

end CodeGraph
