import CodeGraph.NodeId
import CodeGraph.Schema.EdgeKind
import CodeGraph.Schema.Header

/-!
# Errors

Every failure of the library is a cause, given as data. Most causes carry the place that detected
them. The wording of all messages is in `Error.message` and the functions it calls.
-/

set_option autoImplicit false

namespace CodeGraph

/-- The place that detects a failure. -/
inductive Site
  | getName
  | setName
  | createNode
  | createNodeWithId
  | replaceNode
  | typeReference
  | attributeAccess
  | methodCall
  | endType
  | createFile
  | fullPath
  | addEdge
  | addValueEdge
  | setEdge
  | removeEdge
  | hideNodeOnly
  | showNodeOnly
  | hideNodes
  | showNodes
  | loadFilter
  | loadGraph
  | loadTexts
  | loadValue
  | addOverride
  | loadOverrides
  | writeShortText
  | readBlock
  | walk
  | breadthFirst
  | caller (name : String)
deriving DecidableEq, Repr

/-- The name under which a place appears in messages. -/
def Site.label : Site → String
  | .getName => "Factory::get_name"
  | .setName => "Factory::set_name"
  | .createNode => "Factory::create_node"
  | .createNodeWithId => "Factory::create_node_with_id"
  | .replaceNode => "Factory::replace_node"
  | .typeReference => "Factory::create_type_former_type"
  | .attributeAccess => "Factory::create_attribute_access"
  | .methodCall => "Factory::create_method_call"
  | .endType => "Factory::end_type"
  | .createFile => "Factory::create_file"
  | .fullPath => "Factory::full_path"
  | .addEdge => "Factory::add_edge"
  | .addValueEdge => "Factory::add_assoc_edge"
  | .setEdge => "Factory::set_edge"
  | .removeEdge => "Factory::remove_edge"
  | .hideNodeOnly => "Factory::set_filtered_this_node_only"
  | .showNodeOnly => "Factory::set_not_filtered_this_node_only"
  | .hideNodes => "Filter::set_filtered"
  | .showNodes => "Filter::set_not_filtered"
  | .loadFilter => "Filter::load"
  | .loadGraph => "Factory::load"
  | .loadTexts => "StrTable::load"
  | .loadValue => "load"
  | .addOverride => "OverrideRelations::add_override"
  | .loadOverrides => "OverrideRelations::load"
  | .writeShortText => "BinaryWriter::write_short_string"
  | .readBlock => "BinaryReader::read_block"
  | .walk => "AlgorithmPreorder::run"
  | .breadthFirst => "AlgorithmPreorder::breadth_first_visit"
  | .caller name => name

/-- A failure of reading from or writing to a file or a byte string. -/
inductive TransferError
  /-- The data ended inside a number. -/
  | endOfData
  /-- The data ended inside a byte string of known length. -/
  | shortRead (expected found : Nat)
  /-- A text has a malformed sequence of `length` bytes at `index`. -/
  | malformedText (length index : Nat)
  /-- A text ends inside the sequence that starts at `index`. -/
  | truncatedText (index : Nat)
  /-- There is no such file. -/
  | fileNotFound
  /-- The receiving end takes no more bytes. -/
  | sinkFull
deriving DecidableEq, Repr

/-- The wording of a transfer failure. -/
def TransferError.message : TransferError → String
  | .endOfData => "failed to fill whole buffer"
  | .shortRead expected found =>
    "expected " ++ toString expected ++ " bytes, found " ++ toString found
  | .malformedText length index =>
    "invalid utf-8 sequence of " ++ toString length ++ " bytes from index " ++ toString index
  | .truncatedText index => "incomplete utf-8 byte sequence from index " ++ toString index
  | .fileNotFound => "No such file or directory (os error 2)"
  | .sinkFull => "writer is full"

/-- Why an operation or a file was refused. -/
inductive Refusal
  | nodeExists (id : NodeId)
  | emptyFileName
  | notSingleValued (edge : EdgeKind)
  | wrongValue (edge : EdgeKind)
  | shortTextTooLong
  | blockSize (size : Nat)
  | unknownCode (vocabulary : String) (code : UInt8)
  | missingTextTable
  | nodeMissing (id : NodeId)
  | notMethod (id : NodeId) (kind : NodeKind)
  | missingMethodId
  | missingOverriddenId
  | missingFilterHeader
  | filterState (code : UInt8)
  | missingProperties
  | wrongProperties (problems : List FileVerdict)
  | wrongLanguage
  | nodeKindCode (code : UInt16)
deriving DecidableEq, Repr

/-- The wording of a refusal. -/
def Refusal.message : Refusal → String
  | .nodeExists id => "node " ++ id.toString ++ " already exists"
  | .emptyFileName => "empty file name"
  | .notSingleValued edge => edge.name ++ " is not a single-valued edge kind"
  | .wrongValue edge => edge.name ++ " edges carry " ++ edge.carries.name ++ " values"
  | .shortTextTooLong => "the string length is greater than 65535"
  | .blockSize size => "invalid block size (" ++ toString size ++ ")"
  | .unknownCode vocabulary code =>
    "invalid " ++ vocabulary ++ " value (" ++ toString code.toNat ++ ")"
  | .missingTextTable => "missing string table"
  | .nodeMissing id => "node " ++ id.toString ++ " does not exist"
  | .notMethod id kind => "node " ++ id.toString ++ " is a " ++ kind.name ++ ", not a method"
  | .missingMethodId => "missing method id"
  | .missingOverriddenId => "missing overridden method id"
  | .missingFilterHeader => "missing filter header"
  | .filterState code => "invalid filter state (" ++ toString code.toNat ++ ")"
  | .missingProperties => "missing property data header"
  | .wrongProperties problems =>
    "invalid graph file properties EnumSet(" ++
      " | ".intercalate (problems.map Enumerated.name) ++ ")"
  | .wrongLanguage => "missing or invalid language property"
  | .nodeKindCode code => "invalid node kind (" ++ toString code.toNat ++ ")"

/-- A failure of an operation. -/
inductive Error
  /-- A path names a folder without a name. -/
  | emptyFolderName (site : Site)
  /-- A type is built of nothing. -/
  | emptyStack (site : Site)
  /-- A stored filter covers another number of ids than the graph. -/
  | filterSizeMismatch (filter graph : Nat)
  /-- Edges of this kind do not start at nodes of that kind. -/
  | edgeUnavailable (site : Site) (edge : EdgeKind) (kind : NodeKind)
  /-- No node has this number. -/
  | noSuchNode (site : Site) (id : UInt32)
  /-- A node, or the kind asked for, is of a kind that the operation does not take. -/
  | wrongKind (site : Site) (kind : NodeKind)
  /-- Reading or writing failed. -/
  | transfer (cause : TransferError)
  /-- The table has no text under this key. -/
  | unknownText (key : TextKey)
  /-- The operation was refused for a reason of its own. -/
  | refused (site : Site) (reason : Refusal)
  /-- The library does not offer this. -/
  | unsupported (site : Site)
deriving DecidableEq, Repr

namespace Error

/-- The wording of an error. -/
def message : Error → String
  | .emptyFolderName site => site.label ++ ": empty folder name"
  | .emptyStack site => site.label ++ ": stack is empty"
  | .filterSizeMismatch filter graph =>
    "filter size (" ++ toString filter ++ ") does not match the graph size (" ++
      toString graph ++ ")"
  | .edgeUnavailable site edge kind =>
    site.label ++ ": edge " ++ edge.name ++ " cannot start at a node of kind " ++ kind.name
  | .noSuchNode site id => site.label ++ ": invalid node id (" ++ toString id.toNat ++ ")"
  | .wrongKind site kind => site.label ++ ": invalid node kind (" ++ kind.name ++ ")"
  | .transfer cause => cause.message
  | .unknownText key => "string table key not found (" ++ key.toString ++ ")"
  | .refused site reason => site.label ++ ": " ++ reason.message
  | .unsupported site => site.label ++ " is not implemented"

end Error

end CodeGraph
