import CodeGraph.Graph.Basic

/-!
# Overrides

Which methods a method overrides, in the order in which it was told. Only methods of the graph can
be told. A method that overrides nothing is not kept, and one that overrides a single method, as most
do, is kept without a list; the second method that is told for it makes a list of the two.
-/

set_option autoImplicit false

namespace CodeGraph

/-- What is kept for a method that overrides any. -/
inductive Overridden where
  | single (id : NodeId)
  | multi (ids : List NodeId)
deriving DecidableEq, Repr

/-- The methods that each method overrides. -/
structure Overrides where
  /-- What is kept of each method that overrides any. -/
  methods : SortedMap NodeId Overridden
deriving DecidableEq, Repr

namespace Overrides

def empty : Overrides :=
  ⟨.empty⟩

instance : Inhabited Overrides := ⟨empty⟩

/-- The methods that a method overrides, in the order in which they were told. -/
def get (o : Overrides) (method : NodeId) : List NodeId :=
  match o.methods.find? method with
  | none => []
  | some (.single id) => [id]
  | some (.multi ids) => ids

/-- The number of methods that a method overrides. -/
def count (o : Overrides) (method : NodeId) : Nat :=
  match o.methods.find? method with
  | none => 0
  | some (.single _) => 1
  | some (.multi ids) => ids.length

/-- The number of methods that override any. -/
def size (o : Overrides) : Nat :=
  o.methods.size

def isEmpty (o : Overrides) : Bool :=
  o.methods.isEmpty

def clear (_ : Overrides) : Overrides :=
  empty

/-- Records one more method that a method overrides. -/
def insert (o : Overrides) (method overridden : NodeId) : Overrides :=
  match o.methods.find? method with
  | none => ⟨o.methods.insert method (.single overridden)⟩
  | some (.single first) => ⟨o.methods.insert method (.multi [first, overridden])⟩
  | some (.multi ids) => ⟨o.methods.insert method (.multi (ids ++ [overridden]))⟩

def checkMethod (g : Graph) (id : NodeId) : Except Error Unit :=
  match g.find? id with
  | none => .error (.refused .addOverride (.nodeMissing id))
  | some n =>
    if n.is .method then .ok () else .error (.refused .addOverride (.notMethod id n.kind))

/-- Records that a method of a graph overrides another one, if both are methods there. -/
def tryAdd (o : Overrides) (g : Graph) (method overridden : NodeId) :
    Except Error Unit × Overrides :=
  match checkMethod g method with
  | .error e => (.error e, o)
  | .ok () =>
    match checkMethod g overridden with
    | .error e => (.error e, o)
    | .ok () => (.ok (), o.insert method overridden)

/-- The bytes of one method: its id, how many methods it overrides, and these. -/
def encodeMethod (o : Overrides) (method : NodeId) : Bytes :=
  Codec.nodeId.encode (some method) ++ wordBytes 4 (o.count method) ++
    (o.get method).flatMap fun id => Codec.nodeId.encode (some id)

/-- The bytes of the overrides: the number of methods that override any, and these in order. -/
def encode (o : Overrides) : Bytes :=
  wordBytes 4 o.size ++ (o.methods.entries.map Prod.fst).flatMap o.encodeMethod

/-- Takes an id that may not be zero. -/
def readId (missing : Refusal) : Reader NodeId := do
  match ← Codec.nodeId.decode with
  | some id => pure id
  | none => Reader.fail (.refused .loadOverrides missing)

/-- Reads what one method overrides, after what is recorded already. -/
def loadMethod (o : Overrides) (input : Bytes) : Loaded Overrides :=
  match readId .missingMethodId input with
  | .error e => (o, .error e)
  | .ok (method, rest) =>
    InPlace.loadCounted
      (InPlace.loadOne (readId .missingOverriddenId) fun overridden o => o.insert method overridden)
      o rest

/-- Replaces everything by what is stored; a failure keeps what was read before it. -/
def load (o : Overrides) (input : Bytes) : Loaded Overrides :=
  InPlace.loadCounted loadMethod o.clear input

end Overrides

end CodeGraph
