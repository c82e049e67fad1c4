import LayerGraph.Layer.Basic
import LayerGraph.Tensor.Kernel

/-!
# Layers with a kernel

Convolutions of three kinds and matrix products. In models with named variables the
kernel is brought into the engine's order; in models with positional operands it already
is in that order, and only its rank is checked.
-/

namespace LayerGraph

/-! ### Convolutions -/

inductive ConvKind where
  | standard
  | depthwise
  | transposed
  deriving DecidableEq

def ConvKind.recordType : ConvKind → String
  | .standard => "Conv2D"
  | .depthwise => "DepthwiseConv2D"
  | .transposed => "Conv2DTranspose"

/-- The order of a kernel held as a named variable. -/
def ConvKind.kernelOrder : ConvKind → KernelOrder
  | .transposed => .rowsColumnsOutIn
  | _ => .rowsColumnsInOut

structure ConvLayer where
  kind : ConvKind
  weights : Option KernelWeights := none
  kernelSize : Option Int := none
  strides : Option Int := none
  padding : Option Json := none
  group : Option Int := none
  depthMultiplier : Option Int := none
  activation : Option String := none
  planes : Option Nat := none

/-- The kernel variable of a layer; a depthwise one has a name of its own, if it is
used. -/
def Node.kernelVariable? (n : Node) (kind : ConvKind) : Option Tensor :=
  match kind with
  | .depthwise =>
    match Entries.value? n.weights "depthwise_kernel" with
    | some t => some t
    | none => Entries.value? n.weights "kernel"
  | _ => Entries.value? n.weights "kernel"

namespace ConvLayer

def readKeras (kind : ConvKind) (n : Node) : Except ConvertError ConvLayer :=
  match n.kernelVariable? kind with
  | none => .error (.invalidLayer n.name .missingKernel)
  | some kernel =>
    match kernel.engineOrder kind.kernelOrder with
    | .error e => .error (.invalidLayer n.name (.kernel e))
    | .ok data => .ok {
        kind
        weights := some ⟨data, (Entries.value? n.weights "bias").map Tensor.data⟩
        kernelSize := n.attrs.firstInt? "kernel_size"
        strides := n.attrs.firstInt? "strides"
        padding := (n.attrs.str? "padding").map .str
        depthMultiplier := if kind = .depthwise then n.attrs.int? "depth_multiplier" else none
        activation := n.attrs.str? "activation"
        planes :=
          match kind, kernel.dims with
          | .depthwise, [_, _, inputs, multiplier] => some (Word.low 32 (inputs * multiplier : Nat))
          | .depthwise, _ => none
          | _, _ => (n.attrs.int? "filters").map (Word.low 32) }

def readOnnx (kind : ConvKind) (n : Node) : Except ConvertError ConvLayer :=
  match n.operandWeight? 1 with
  | none => .error (.invalidLayer n.name .missingKernel)
  | some kernel =>
    match kernel.dims with
    | [d0, d1, d2, _] =>
      let group := (n.attrs.int? "group").getD 1
      .ok {
        kind
        weights := some ⟨kernel.data, (n.operandWeight? 2).map Tensor.data⟩
        kernelSize := some ((n.attrs.firstInt? "kernel_shape").getD (Word.signed 64 d2))
        strides := some ((n.attrs.firstInt? "strides").getD 1)
        padding := some (n.onnxPadding (.str "same") (.str "valid") (.int 0))
        group := some group
        depthMultiplier :=
          if kind = .depthwise then
            some (Int.tdiv (Word.signed 64 d0) (max ((n.attrs.int? "group_count").getD 1) 1))
          else none
        planes := some (Word.low 32 (if kind = .transposed then Word.signed 64 d1 * group else d0)) }
    | dims => .error (.invalidLayer n.name (.kernelRank dims 4))

def read (cx : LayerContext) (kind : ConvKind) (n : Node) : Except ConvertError ConvLayer :=
  match cx.format with
  | .keras => readKeras kind n
  | .onnx => readOnnx kind n

def fields (l : ConvLayer) : List (String × Option Json) :=
  [("kernel_size", l.kernelSize.map .int), ("strides", l.strides.map .int),
    ("padding", l.padding), ("group", l.group.map .int),
    ("depth_multiplier", l.depthMultiplier.map .int),
    ("useBias", some (.str (engineBool (l.weights.any fun w => w.bias.isSome))))]

def record (l : ConvLayer) (n : Node) : Record :=
  { (n.record l.kind.recordType).fill (l.fields ++ n.absorbedFields l.activation) with
    outputPlanes := l.planes
    weights := l.weights
    norm := n.absorbedParams }

end ConvLayer

/-! ### Matrix products -/

structure DenseLayer where
  /-- Whether it is an operator, with scalings of its own, and not a layer. -/
  gemm : Bool := false
  weights : Option KernelWeights := none
  units : Option Nat := none
  activation : Option String := none
  alpha : Option Single := none
  beta : Option Single := none
  transB : Option Int := none

namespace DenseLayer

def readKeras (n : Node) : Except ConvertError DenseLayer :=
  match Entries.value? n.weights "kernel" with
  | none => .error (.invalidLayer n.name .missingKernel)
  | some kernel =>
    match kernel.engineOrder .inOut with
    | .error e => .error (.invalidLayer n.name (.kernel e))
    | .ok data => .ok {
        weights := some ⟨data, (Entries.value? n.weights "bias").map Tensor.data⟩
        units :=
          match n.attrs.int? "units" with
          | some u => some (Word.low 32 u)
          | none => kernel.dims.getLast?.map fun d => Word.low 32 d
        activation := n.attrs.str? "activation" }

def readOnnx (n : Node) : Except ConvertError DenseLayer :=
  match n.operandWeight? 1 with
  | none => .error (.invalidLayer n.name .missingKernel)
  | some kernel =>
    match kernel.dims with
    | [d0, d1] =>
      let transB := (n.attrs.int? "transB").getD 0
      .ok {
        gemm := true
        weights := some ⟨kernel.data, (n.operandWeight? 2).map Tensor.data⟩
        units := some (Word.low 32 (if transB = 1 then d0 else d1))
        alpha := n.attrs.float? "alpha"
        beta := n.attrs.float? "beta"
        transB := some transB }
    | dims => .error (.invalidLayer n.name (.kernelRank dims 2))

def read (cx : LayerContext) (n : Node) : Except ConvertError DenseLayer :=
  match cx.format with
  | .keras => readKeras n
  | .onnx => readOnnx n

/-- The fields of an operator alone. -/
def scalings (l : DenseLayer) : List (String × Option Json) :=
  if l.gemm then
    [("alpha", l.alpha.map Json.ofSingle), ("beta", l.beta.map Json.ofSingle),
      ("transB", l.transB.map .int)]
  else []

def fields (l : DenseLayer) : List (String × Option Json) :=
  ("units", l.units.map fun u => .int u) :: l.scalings ++
    [("useBias", some (.str (engineBool (l.weights.any fun w => w.bias.isSome))))]

def record (l : DenseLayer) (n : Node) : Record :=
  { (n.record (if l.gemm then "Gemm" else "Dense")).fill
      (l.fields ++ n.absorbedFields l.activation) with
    outputPlanes := l.units
    weights := l.weights
    norm := n.absorbedParams }

end DenseLayer

end LayerGraph
