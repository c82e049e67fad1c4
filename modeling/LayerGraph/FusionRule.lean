import LayerGraph.Error
import LayerGraph.Json.Outline
import LayerGraph.Text.Blank

/-!
# Fusion rules

A rule says whether nodes of one operator may be absorbed, and by which operators. The
rules in force are a `FusionPolicy`, one table for each model format; an operator
without a rule is never absorbed.

Rules are also read from JSON tables, where people have left them in spreadsheet
spellings: a flag may be a word, and the operators may stand in one string, separated
by semicolons. A rule is an object, or an array that gives the entries in order. The
table is read in the order of its text, and its first error is the one reported.
-/

namespace LayerGraph

structure FusionRule where
  layerType : String
  isFusible : Bool := false
  fusibleWith : List String := []
  deriving DecidableEq

namespace FusionRule

/-- The rule that allows exactly the given targets. -/
def allowing (layerType : String) (targets : List String) : FusionRule :=
  ⟨layerType, !targets.isEmpty, targets⟩

/-- Whether the rule lets its nodes be absorbed by nodes of an operator. -/
def fusesInto (r : FusionRule) (opType : String) : Bool :=
  r.isFusible && r.fusibleWith.contains opType

end FusionRule

/-! ### Reading a table -/

namespace Outline

def readString : Outline → Except TableError String
  | .text ps =>
    match Piece.string? ps with
    | some s => .ok s
    | none => .error .malformed
  | _ => .error .malformed

def readStrings : List Outline → Except TableError (List String)
  | [] => .ok []
  | o :: os => do
    let s ← o.readString
    return s :: (← readStrings os)

def readStringList : Outline → Except TableError (List String)
  | .arr items closed => do
    let ss ← readStrings items
    if closed then return ss else throw .malformed
  | _ => .error .malformed

end Outline

/-- The meaning of a flag that is spelled out; case does not matter. -/
def flagOfText (s : String) : Except TableError Bool :=
  let word := String.ofList (s.toList.map Char.toLower)
  if word = "true" || word = "1" || word = "yes" then .ok true
  else if word = "false" || word = "0" || word = "no" || word = "" then .ok false
  else .error (.invalidFlag s)

/-- The names in a string, separated by semicolons. -/
def namesOfText (s : String) : List String :=
  (((pieces ';' s.toList).map trimBlanks).filter fun p => !p.isEmpty).map String.ofList

namespace FusionRule

/-- The entries of a rule read so far. -/
structure Draft where
  layerType : Option String := none
  isFusible : Option Bool := none
  fusibleWith : Option (List String) := none

def readFlag : Outline → Except TableError Bool
  | .bool b => .ok b
  | .text ps =>
    match Piece.string? ps with
    | some s => flagOfText s
    | none => .error .malformed
  | _ => .error .malformed

def readTargets : Outline → Except TableError (List String)
  | .null => .ok []
  | .text ps =>
    match Piece.string? ps with
    | some s => .ok (namesOfText s)
    | none => .error .malformed
  | o => o.readStringList

namespace Draft

def readType (d : Draft) (o : Outline) : Except TableError Draft := do
  if d.layerType.isSome then throw .malformed
  return { d with layerType := some (← o.readString) }

def readFusible (d : Draft) (o : Outline) : Except TableError Draft := do
  if d.isFusible.isSome then throw .malformed
  return { d with isFusible := some (← readFlag o) }

def readWith (d : Draft) (o : Outline) : Except TableError Draft := do
  if d.fusibleWith.isSome then throw .malformed
  return { d with fusibleWith := some (← readTargets o) }

/-- An entry of an object. Entries that are not known are skipped. -/
def readMember (d : Draft) (key : List Piece) (o : Outline) : Except TableError Draft :=
  match Piece.string? key with
  | some "layerType" => d.readType o
  | some "isFusible" => d.readFusible o
  | some "fusibleWith" => d.readWith o
  | some _ => if o.whole then .ok d else .error .malformed
  | none => .error .malformed

def readMembers : Draft → List (List Piece × Outline) → Except TableError Draft
  | d, [] => .ok d
  | d, (key, o) :: ms => do readMembers (← d.readMember key o) ms

/-- Entries given in order, without their names. -/
def readItems : List Outline → Except TableError Draft
  | [] => .ok {}
  | [a] => ({} : Draft).readType a
  | [a, b] => do (← ({} : Draft).readType a).readFusible b
  | [a, b, c] => do (← (← ({} : Draft).readType a).readFusible b).readWith c
  | a :: b :: c :: _ => do
    let _ ← (← (← ({} : Draft).readType a).readFusible b).readWith c
    throw .malformed

/-- The rule of a complete draft: only the operator has no default. -/
def rule (d : Draft) : Except TableError FusionRule :=
  match d.layerType with
  | some layerType => .ok ⟨layerType, d.isFusible.getD false, d.fusibleWith.getD []⟩
  | none => .error .malformed

end Draft

/-- The rule of an outline. -/
def read : Outline → Except TableError FusionRule
  | .arr items closed => do
    let d ← Draft.readItems items
    if closed then d.rule else throw .malformed
  | .obj members closed => do
    let d ← Draft.readMembers {} members
    if closed then d.rule else throw .malformed
  | _ => .error .malformed

def readAll : List Outline → Except TableError (List FusionRule)
  | [] => .ok []
  | o :: os => do
    let r ← read o
    return r :: (← readAll os)

/-- The rules of a JSON table. -/
def readTable (text : String) : Except TableError (List FusionRule) :=
  match Outline.ofString text with
  | (.arr items closed, ended) => do
    let rs ← readAll items
    if closed && ended then return rs else throw .malformed
  | _ => .error .malformed

end FusionRule

/-! ### Policies -/

/-- The rules in force, for each format by operator. -/
structure FusionPolicy where
  keras : Entries FusionRule := []
  onnx : Entries FusionRule := []

namespace FusionPolicy

/-- The policy under which nothing but dropouts leaves a graph. -/
def empty : FusionPolicy := {}

def rules (p : FusionPolicy) : ModelFormat → Entries FusionRule
  | .keras => p.keras
  | .onnx => p.onnx

/-- Adds a rule; it takes the place of an earlier one for the same operator. -/
def insert (p : FusionPolicy) (format : ModelFormat) (r : FusionRule) : FusionPolicy :=
  match format with
  | .keras => { p with keras := p.keras.set r.layerType r }
  | .onnx => { p with onnx := p.onnx.set r.layerType r }

def insertAll (p : FusionPolicy) (format : ModelFormat) (rs : List FusionRule) : FusionPolicy :=
  rs.foldl (fun p r => p.insert format r) p

/-- Adds the rules of a JSON table and counts them. -/
def extend (p : FusionPolicy) (format : ModelFormat) (text : String) :
    Except TableError (FusionPolicy × Nat) :=
  match FusionRule.readTable text with
  | .ok rs => .ok (p.insertAll format rs, rs.length)
  | .error e => .error e

def rule? (p : FusionPolicy) (format : ModelFormat) (opType : String) : Option FusionRule :=
  (p.rules format).value? opType

def isFusible (p : FusionPolicy) (format : ModelFormat) (opType : String) : Bool :=
  match p.rule? format opType with
  | some r => r.isFusible
  | none => false

/-- Whether a node of one operator may be absorbed by a node of another. -/
def allows (p : FusionPolicy) (format : ModelFormat) (opType target : String) : Bool :=
  match p.rule? format opType with
  | some r => r.fusesInto target
  | none => false

/-! ### The standard policy -/

def kerasConvs : List String := ["Conv2D", "DepthwiseConv2D", "Conv2DTranspose"]

def kerasActivationTargets : List String := kerasConvs ++ ["Dense", "Add"]

def onnxConvs : List String := ["Conv", "DepthwiseConv2D", "ConvTranspose"]

def onnxActivationTargets : List String := onnxConvs ++ ["Gemm", "Add"]

/-- The targets of an activation with a parameter of its own: a matrix product has a
parameter of that name already. -/
def onnxLeakyTargets : List String := onnxConvs ++ ["Add"]

/-- The policy in force unless another one is given. -/
def standard : FusionPolicy :=
  (empty.insertAll .keras
    (.allowing "BatchNormalization" kerasConvs ::
      ["Activation", "ReLU", "LeakyReLU"].map (FusionRule.allowing · kerasActivationTargets))).insertAll
    .onnx
    (.allowing "BatchNormalization" (onnxConvs ++ ["Gemm"]) ::
      (["Relu", "Clip", "Sigmoid", "Tanh", "Swish"].map (FusionRule.allowing · onnxActivationTargets) ++
        [.allowing "LeakyRelu" onnxLeakyTargets]))

end FusionPolicy

end LayerGraph
