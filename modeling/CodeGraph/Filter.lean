import CodeGraph.Binary.InPlace
import CodeGraph.Node.Table

/-!
# Filters

A filter holds a state for each id below its size: filtered or not. Ids beyond have no state and
count as not filtered; setting one makes the filter reach it. Filtering a node filters all that
containment reaches from it; showing a node shows all that containment reaches from it and its
ancestors.
-/

set_option autoImplicit false

namespace CodeGraph

/-- Whether a node is hidden. -/
inductive FilterState
  | notFiltered
  | filtered
deriving DecidableEq, Repr, Inhabited

instance : Enumerated FilterState where
  label := "FilterState"
  all := [.notFiltered, .filtered]
  name
    | .notFiltered => "NotFiltered"
    | .filtered => "Filtered"
  nodup := by decide
  complete := by intro a; cases a <;> decide

/-- The filter states of the ids below its size. -/
structure Filter where
  states : Array FilterState
deriving DecidableEq, Repr

namespace Filter

def empty : Filter :=
  ⟨#[]⟩

/-- The states as a table in which everything beyond the last one is not filtered. -/
def table (f : Filter) : IdTable FilterState :=
  ⟨f.states, .notFiltered⟩

def size (f : Filter) : Nat :=
  f.states.size

/-- The filter that covers exactly `n` ids; new ones are not filtered. -/
def resize (f : Filter) (n : Nat) : Filter :=
  ⟨(f.table.resize n).items⟩

/-- The filter of the same size without filtered ids. -/
def reset (f : Filter) : Filter :=
  ⟨(f.table.overwrite .notFiltered).items⟩

/-- The state of an id, if the filter covers it. -/
def state? (f : Filter) (id : NodeId) : Option FilterState :=
  f.table.get? id

def isFiltered (f : Filter) (id : NodeId) : Bool :=
  f.state? id = some .filtered

/-- The filter with the state of one id set. -/
def set (f : Filter) (id : NodeId) (state : FilterState) : Filter :=
  ⟨(f.table.set id state).items⟩

/-- The filter with the states of several ids set. -/
def setAll (f : Filter) (ids : List NodeId) (state : FilterState) : Filter :=
  ids.foldl (fun f id => f.set id state) f

def filteredIds (f : Filter) : List NodeId :=
  (List.range f.size).filterMap fun i =>
    if f.states[i]? = some .filtered then NodeId.ofIndex? i else none

/-- Gives a node and all that containment reaches from it one state. -/
def setSubtree (f : Filter) (nodes : NodeTable) (site : Site) (id : NodeId) (state : FilterState) :
    Filter × Except Error Unit :=
  match nodes.find? id with
  | none => (f, .error (.noSuchNode site id.raw))
  | some _ => (f.setAll (nodes.subtree id) state, .ok ())

/-- Filters a node and all that containment reaches from it. -/
def hide (f : Filter) (nodes : NodeTable) (id : NodeId) : Filter × Except Error Unit :=
  f.setSubtree nodes .hideNodes id .filtered

/-- Shows a node's ancestors, nearest first; `steps` bounds their number. An ancestor that does not
exist ends the chain with an error after it has been marked. -/
def showAncestors (nodes : NodeTable) :
    (steps : Nat) → Option NodeId → Filter → Filter × Except Error Unit
  | 0, _, f => (f, .ok ())
  | _ + 1, none, f => (f, .ok ())
  | steps + 1, some id, f =>
    let shown := f.set id .notFiltered
    match nodes.find? id with
    | none => (shown, .error (.noSuchNode .showNodes id.raw))
    | some n => showAncestors nodes steps n.parentId? shown

/-- Shows a node, all that containment reaches from it, and its ancestors. The node is looked up again
for its parent. A chain of ancestors that ends is no longer than the table of nodes. -/
def reveal (f : Filter) (nodes : NodeTable) (id : NodeId) : Filter × Except Error Unit :=
  match f.setSubtree nodes .showNodes id .notFiltered with
  | (f, .error cause) => (f, .error cause)
  | (f, .ok ()) =>
    match nodes.find? id with
    | none => (f, .error (.noSuchNode .showNodes id.raw))
    | some n => showAncestors nodes (nodes.size + 1) n.parentId? f

/-- The bytes that every stored filter starts with. -/
def magic : Bytes :=
  [0x66, 0x6C, 0x74, 0x00]

def stateByte : FilterState → UInt8
  | .notFiltered => 0
  | .filtered => 1

/-- The bytes of a filter: the magic, the number of ids covered, and one byte for each. -/
def save (f : Filter) : Bytes :=
  magic ++ wordBytes 4 f.size ++ f.states.toList.map stateByte

def readState : Reader FilterState := do
  let b ← Reader.byte
  if b = 0 then pure .notFiltered
  else if b = 1 then pure .filtered
  else Reader.fail (.refused .loadFilter (.filterState b))

def readStates : Nat → Reader (List FilterState)
  | 0 => pure []
  | n + 1 => do
    let state ← readState
    let others ← readStates n
    pure (state :: others)

/-- The filter with the given states; position zero belongs to no node and is never filtered. -/
def ofStates : List FilterState → Filter
  | [] => empty
  | _ :: states => ⟨(FilterState.notFiltered :: states).toArray⟩

/-- Replaces a filter by a stored one that covers exactly `graphSize` ids; what follows it is ignored.
The states are collected first, so that the filter is replaced when all of them are there. -/
def load (f : Filter) (graphSize : Nat) (input : Bytes) : Filter × Except Error Unit :=
  match Reader.bytes magic.length input with
  | .error cause => (f, .error cause)
  | .ok (start, input) =>
    if start ≠ magic then (f, .error (.refused .loadFilter .missingFilterHeader))
    else
      match Reader.word 4 input with
      | .error cause => (f, .error cause)
      | .ok (size, input) =>
        if size ≠ graphSize then (f, .error (.filterSizeMismatch size graphSize))
        else
          match readStates size input with
          | .error cause => (f, .error cause)
          | .ok (states, _) => (ofStates states, .ok ())

end Filter

end CodeGraph
