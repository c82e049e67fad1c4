import LayerGraph.Layer.Basic

/-!
# Layers that change the grid

Pooling, padding, upsampling and reshaping. None of them changes the number of planes.
-/

namespace LayerGraph

/-! ### Pooling -/

structure PoolLayer where
  kind : PoolKind
  size : Option (List Int) := none
  strides : Option (List Int) := none
  padding : Option Json := none

def PoolKind.recordType : PoolKind → String
  | .average => "AveragePooling2D"
  | .max => "MaxPooling2D"

/-- Where a shape has its height. -/
def ModelFormat.heightAxis : ModelFormat → Nat
  | .keras => 1
  | .onnx => 2

namespace PoolLayer

/-- The window as the attributes give it. -/
def declared (format : ModelFormat) (kind : PoolKind) (n : Node) : PoolLayer :=
  match format with
  | .keras =>
    let size := n.attrs.ints? "pool_size"
    { kind
      size
      strides := (n.attrs.ints? "strides").or size
      padding := (n.attrs.str? "padding").map .str }
  | .onnx =>
    { kind
      size := n.attrs.ints? "kernel_shape"
      strides := some ((n.attrs.ints? "strides").getD [1, 1])
      padding := some (n.onnxPadding (.str "same") (.str "valid") (.str "valid")) }

/-- The height of the grid that feeds a node, where its shape is known. -/
def inputHeight? (cx : LayerContext) (n : Node) : Option Int :=
  match n.inputs.head?.bind fun input => cx.shapes.value? input with
  | some dims =>
    if 3 < dims.length then dims[cx.format.heightAxis]?.filter fun d => 0 < d else none
  | none => none

/-- A window over the whole grid, if its extent is known. -/
def spanning (cx : LayerContext) (n : Node) (l : PoolLayer) : PoolLayer :=
  match inputHeight? cx n with
  | some d => { l with size := some [d, d], strides := some [1, 1], padding := some (.str "valid") }
  | none => l

def read (cx : LayerContext) (kind : PoolKind) (n : Node) : PoolLayer :=
  let l := declared cx.format kind n
  if l.size.isNone || n.attrs.bool? "global" = some true then spanning cx n l else l

def record (l : PoolLayer) (n : Node) : Record :=
  (n.record l.kind.recordType).fill
    [("pool_size", l.size.map Json.ints), ("strides", l.strides.map Json.ints),
      ("padding", l.padding)]

end PoolLayer

/-! ### Padding -/

structure PadLayer where
  mode : Option String := none
  pads : Option (List Int) := none
  value : Single := .zero

namespace PadLayer

/-- The amounts and the value are operands in newer models, attributes in older ones. -/
def read (n : Node) : PadLayer where
  mode := some ((n.attrs.str? "mode").getD "constant")
  pads := ((n.operandWeight? 1).map Tensor.ints).or (n.attrs.ints? "pads")
  value := (((n.operandWeight? 2).bind fun t => t.data.head?).or (n.attrs.float? "value")).getD .zero

def record (l : PadLayer) (n : Node) : Record :=
  (n.record "Pad").fill
    [("mode", l.mode.map .str), ("pads", l.pads.map Json.ints),
      ("constant_value", some (Json.ofSingle l.value))]

end PadLayer

/-- The padding with zeros, which is handed on as it was given. -/
def Node.zeroPadding? (n : Node) : Option Json :=
  (Entries.value? n.attrs "padding").map AttrValue.toJson

def Node.zeroPadRecord (n : Node) (padding : Option Json) : Record :=
  (n.record "ZeroPadding2D").fill [("padding", padding)]

/-! ### Upsampling -/

structure UpSampleLayer where
  factor : Option Single := none
  interpolation : Option String := none

namespace UpSampleLayer

def read (format : ModelFormat) (n : Node) : UpSampleLayer :=
  match format with
  | .keras =>
    { factor := (n.attrs.firstInt? "size").map Floating.ofInt
      interpolation := some ((n.attrs.str? "interpolation").getD "nearest") }
  | .onnx =>
    { factor := n.attrs.float? "scaleFactor"
      interpolation := n.attrs.str? "interpolation" }

def record (l : UpSampleLayer) (n : Node) : Record :=
  (n.record "UpSampling2D").fill
    [("interpolation", l.interpolation.map .str), ("scaleFactor", l.factor.map Json.ofSingle)]

end UpSampleLayer

/-! ### Reshaping -/

/-- The shape to take on, where it is constant. -/
def Node.targetShape? (n : Node) : ModelFormat → Option (List Int)
  | .keras => n.attrs.ints? "target_shape"
  | .onnx => ((n.operandWeight? 1).map Tensor.ints).or (n.attrs.ints? "shape")

def Node.reshapeRecord (n : Node) (shape : Option (List Int)) : Record :=
  (n.record "Reshape").fill [("target_shape", shape.map Json.ints)]

end LayerGraph
