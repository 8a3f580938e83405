import CodeGraph.GraphFile.Records

/-!
# Checking a graph file

A check tells whether the properties of a file are accepted, without reading its nodes.
-/

set_option autoImplicit false

namespace CodeGraph

namespace GraphFile

/-- What is wrong with a file, as far as its properties tell; a file that cannot be read so far is
an error. -/
def problems (input : Bytes) : Except Error (List FileVerdict) := do
  let (start, rest) ← Reader.bytes magic.length input
  if start = magic then
    let scan := loadHeaders [] rest
    let _ ← scan.2
    match scan.1.properties with
    | some p => pure p.problems
    | none => pure [.missingFileType, .missingApiVersion, .missingBinaryVersion]
  else
    pure [.wrongFileType]

/-- The verdict on the content of a file; without a file there is none. -/
def check (content : Option Bytes) : List FileVerdict :=
  match content with
  | none => [.unknownError]
  | some input =>
    match problems input with
    | .ok [] => [.valid]
    | .ok found => found
    | .error _ => [.unknownError]

end GraphFile

end CodeGraph
