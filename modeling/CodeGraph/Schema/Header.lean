import CodeGraph.Enumerated

/-!
# Header vocabularies

The kinds of header record that a graph file may hold before its nodes, and the verdicts that the
check of such a file can reach.
-/

set_option autoImplicit false

namespace CodeGraph

/-- The kinds of header record that a graph file may hold. -/
inductive HeaderKind
  | properties
  | intervals
  | analysis
  | linkerCompilation
  | origin
  | overrides
deriving DecidableEq, Repr

instance : Enumerated HeaderKind where
  label := "HeaderKind"
  all := [.properties, .intervals, .analysis, .linkerCompilation, .origin, .overrides]
  name
    | .properties => "PropertyData"
    | .intervals => "IntervalData"
    | .analysis => "AnalysisData"
    | .linkerCompilation => "LinkerCompilationData"
    | .origin => "LimOrigin"
    | .overrides => "Override"
  nodup := by decide
  complete := by intro a; cases a <;> decide

/-- What the check of a graph file can report. -/
inductive FileVerdict
  | valid
  | missingFileType
  | wrongFileType
  | missingApiVersion
  | wrongApiVersion
  | missingBinaryVersion
  | wrongBinaryVersion
  | unknownError
deriving DecidableEq, Repr

instance : Enumerated FileVerdict where
  label := "AsgValidationKind"
  all := [.valid, .missingFileType, .wrongFileType, .missingApiVersion, .wrongApiVersion,
    .missingBinaryVersion, .wrongBinaryVersion, .unknownError]
  name
    | .valid => "Valid"
    | .missingFileType => "MissingFileType"
    | .wrongFileType => "WrongFileType"
    | .missingApiVersion => "MissingApiVersion"
    | .wrongApiVersion => "WrongApiVersion"
    | .missingBinaryVersion => "MissingBinaryVersion"
    | .wrongBinaryVersion => "WrongBinaryVersion"
    | .unknownError => "UnknownError"
  nodup := by decide
  complete := by intro a; cases a <;> decide

end CodeGraph
