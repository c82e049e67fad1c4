import LayerGraph.ModelFormat
import LayerGraph.Text.Listing

/-!
# What can go wrong

Every failure of a conversion is a cause: a constructor that carries what the failure
is about. The wording is settled in one place, `ConvertError.message`, and so are the
codes reported to a caller, `ConvertError.code`. Failures whose wording belongs to
someone else – a text that is not JSON, a file that cannot be read, bytes that are no
model – have no message here.
-/

namespace LayerGraph

/-! ### Tensors and kernels -/

/-- Why data does not fill a shape. -/
inductive ShapeError where
  /-- The shape has more places than a signed word can count. -/
  | overflow
  /-- The shape has more places than there is data. -/
  | outOfBounds
  /-- The shape has fewer places than there is data. -/
  | incompatible
  deriving DecidableEq

def ShapeError.message : ShapeError → String
  | .overflow => "ShapeError/Overflow: arithmetic overflow"
  | .outOfBounds => "ShapeError/OutOfBounds: out of bounds indexing"
  | .incompatible => "ShapeError/IncompatibleShape: incompatible shapes"

/-- Why a kernel cannot be reordered. -/
inductive KernelError where
  | rank (expected : Nat) (dims : List Nat)
  | shape (e : ShapeError)
  deriving DecidableEq

def KernelError.message : KernelError → String
  | .rank expected dims =>
    "expected a rank-" ++ toString expected ++ " kernel, got shape " ++ shapeText dims
  | .shape e => e.message

/-! ### Layers and graphs -/

/-- What is wrong with a single layer. -/
inductive LayerFault where
  | missingKernel
  /-- The kernel of an operator does not have the rank of its family. -/
  | kernelRank (dims : List Nat) (expected : Nat)
  | kernel (e : KernelError)
  | missingStatistics
  deriving DecidableEq

def LayerFault.message : LayerFault → String
  | .missingKernel => "kernel is missing"
  | .kernelRank dims expected =>
    "kernel of shape " ++ shapeText dims ++ " is not " ++ toString expected ++ "-D"
  | .kernel e => e.message
  | .missingStatistics => "moving statistics are missing"

/-- What is wrong with a graph as a whole. -/
inductive GraphFault where
  | duplicateName (name : String)
  | unknownReference (record name : String)
  /-- The record at position `i` refers to the one at position `j`, which is not before
  it. -/
  | laterReference (record : String) (i : Nat) (name : String) (j : Nat)
  /-- A family that never has a record of its own. -/
  | untranslatable (family : String)
  deriving DecidableEq

def GraphFault.message : GraphFault → String
  | .duplicateName name => "duplicate node name '" ++ name ++ "'"
  | .unknownReference record name =>
    "'" ++ record ++ "' references unknown layer '" ++ name ++ "'"
  | .laterReference record i name j =>
    "'" ++ record ++ "' (layer " ++ toString i ++ ") references '" ++ name ++
      "' (layer " ++ toString j ++ "), which comes later"
  | .untranslatable family => family ++ " layers cannot be translated"

/-! ### Reading models and tables -/

/-- What is wrong with a model configuration. -/
inductive ConfigFault where
  | missingClass
  | missingName (className : String)
  | operandsNotList (name : String)
  | callNotList
  | unreadableReference (text : String)
  | missingLayers
  | notAnObject
  | missingLayerPrefix (path : String)
  /-- A tensor holds `count` values where its shape has `needed` places. -/
  | tensorSize (name : String) (count : Nat) (dims : List Nat) (needed : Nat)
  deriving DecidableEq

def ConfigFault.message : ConfigFault → String
  | .missingClass => "layer without class_name"
  | .missingName className => className ++ " layer without a name"
  | .operandsNotList name => "inbound_nodes of '" ++ name ++ "' is not a list"
  | .callNotList => "inbound call is not a list"
  | .unreadableReference text => "unreadable inbound reference " ++ text
  | .missingLayers => "model config has no layer list"
  | .notAnObject => "model config is not an object"
  | .missingLayerPrefix path => "weight name '" ++ path ++ "' has no layer prefix"
  | .tensorSize name count dims needed =>
    "tensor '" ++ name ++ "' holds " ++ toString count ++ " values, shape " ++
      shapeText dims ++ " needs " ++ toString needed

/-- Why a model cannot be loaded. -/
inductive LoadError where
  /-- The bytes are not a model. -/
  | undecodable
  | noGraph
  | noInput
  | unsupportedDataType (name : String) (dataType : Int)
  | invalidConfig (fault : ConfigFault)
  deriving DecidableEq

def LoadError.message? : LoadError → Option String
  | .undecodable => none
  | .noGraph => some "Model does not contain any graph"
  | .noInput => some "Model does not declare any input"
  | .unsupportedDataType name dataType =>
    some ("Unsupported data type for tensor '" ++ name ++ "': " ++ toString dataType)
  | .invalidConfig fault => some ("Model configuration is malformed: " ++ fault.message)

/-- Why a JSON text cannot be read as a table. -/
inductive TableError where
  /-- It is not JSON, or not of the expected form. -/
  | malformed
  /-- A flag is spelled in an unknown way. -/
  | invalidFlag (text : String)
  deriving DecidableEq

def TableError.message? : TableError → Option String
  | .malformed => none
  | .invalidFlag text => some ("invalid flag '" ++ text ++ "'")

/-! ### A conversion -/

inductive ConvertError where
  | invalidModelFormat (path : String)
  | emptyFile (path : String)
  | fileNotFound (path : String)
  | invalidFramework (name : String)
  | invalidCustomLayerFile (path : String)
  | unsupportedLayer (opType : String)
  | invalidLayer (layer : String) (fault : LayerFault)
  | invalidGraph (fault : GraphFault)
  | noLoader (format : ModelFormat)
  | load (e : LoadError)
  /-- A file or directory could not be read, written or made. -/
  | file
  | table (e : TableError)
  deriving DecidableEq

namespace ConvertError

def message? : ConvertError → Option String
  | .invalidModelFormat path => some ("Invalid model file format: " ++ path)
  | .emptyFile path => some ("Model file is empty: " ++ path)
  | .fileNotFound path => some ("File not found: " ++ path)
  | .invalidFramework name => some ("Invalid compatible framework: " ++ name)
  | .invalidCustomLayerFile path => some ("Invalid custom layer file format: " ++ path)
  | .unsupportedLayer opType => some ("Unsupported layer: " ++ opType)
  | .invalidLayer layer fault => some ("Layer '" ++ layer ++ "' is invalid: " ++ fault.message)
  | .invalidGraph fault => some ("Graph is invalid: " ++ fault.message)
  | .noLoader format => some ("No loader available for " ++ format.title ++ " models")
  | .load e => e.message?
  | .file => none
  | .table e => e.message?

/-- The code reported to a caller; everything that has none of its own is 1. -/
def code : ConvertError → Nat
  | .invalidModelFormat _ => 101
  | .emptyFile _ => 102
  | .fileNotFound _ => 103
  | .invalidFramework _ => 104
  | .invalidCustomLayerFile _ => 105
  | .unsupportedLayer _ => 201
  | _ => 1

end ConvertError

end LayerGraph
