import LayerGraph.Graph
import LayerGraph.ModelFormat

/-!
# Operators that depend on their attributes

Some operators belong to different families of layers depending on what they carry: a
grouped convolution is a depthwise one, a resize by one common factor is an upsampling,
and global average pooling is average pooling over everything. Reclassifying gives such
nodes the operator of their family and notes in the attributes what the change of
operator would lose. A resize that does not qualify keeps its operator, which no family
knows.
-/

namespace LayerGraph

/-- The 32 bit value 1. -/
def Floating.one : Single := .ofInt 1

/-- Extends a common factor found so far by more scales; 1 stands for none found. -/
def extendFactor : Single → List Single → Option Single
  | factor, [] => some factor
  | factor, s :: ss =>
    if s.less .one || (!factor.same .one && Floating.one.less s && !s.same factor) then none
    else extendFactor (if Floating.one.less s then s else factor) ss

/-- The common factor of a list of scales: all are at least 1, and those above 1 agree. -/
def upsampleFactor (scales : List Single) : Option Single := extendFactor .one scales

namespace Node

/-- The operand that holds the scales of a resize. -/
def scalesOperand (n : Node) : Nat :=
  if n.opType = "Upsample" || n.operands.length = 2 then 1 else 2

/-- The scales of a resize, where they are known. -/
def scales? (n : Node) : Option (List Single) :=
  match Entries.value? n.attrs "scales" with
  | some (.floats xs) => some xs
  | _ => ((n.operandWeight? n.scalesOperand).map Tensor.data).filter fun xs => !xs.isEmpty

/-- A convolution of several groups. -/
def groupedConv? (n : Node) : Option Node :=
  let group := (n.attrs.int? "group").getD 1
  if 1 < group then
    some { n with
      opType := "DepthwiseConv2D"
      attrs := (Entries.set n.attrs "group" (.int 1)).set "group_count" (.int group) }
  else none

/-- A resize by one factor. -/
def uniformResize? (n : Node) : Option Node :=
  (n.scales?.bind upsampleFactor).map fun factor =>
    let mode := (n.attrs.str? "mode").getD "nearest"
    { n with
      opType := "UpSampling2D"
      attrs := (Entries.set n.attrs "scaleFactor" (.float factor)).set "interpolation" (.str mode) }

/-- Pooling over everything. -/
def globalPool (opType : String) (n : Node) : Node :=
  { n with opType := opType, attrs := Entries.set n.attrs "global" (.bool true) }

/-- The node under the operator of its family, if that is another one. -/
def reclassified? (format : ModelFormat) (n : Node) : Option Node :=
  match format with
  | .onnx =>
    if n.opType = "Conv" then n.groupedConv?
    else if n.opType = "Resize" || n.opType = "Upsample" then n.uniformResize?
    else if n.opType = "GlobalAveragePool" then some (n.globalPool "AveragePool")
    else none
  | .keras =>
    if n.opType = "GlobalAveragePooling2D" then some (n.globalPool "AveragePooling2D")
    else none

end Node

namespace Graph

/-- The number of live nodes that reclassifying changes. -/
def reclassifyCount (g : Graph) (format : ModelFormat) : Nat :=
  g.live.countP fun n => (n.reclassified? format).isSome

/-- **Reclassification** of all live nodes. -/
def reclassify (g : Graph) (format : ModelFormat) : Graph :=
  ⟨g.nodes.map fun n => if n.deleted then n else (n.reclassified? format).getD n⟩

end Graph

end LayerGraph
