import LayerGraph.CustomObject

/-!
# Families of layers

An operator belongs to a family, which decides how its nodes are read and written. The
built-in families are fixed for each model format; custom objects are consulted only for
operators that none of them claims, so a description can add families but never change
one.
-/

namespace LayerGraph

inductive PoolKind where
  | average
  | max
  deriving DecidableEq

inductive Family where
  | input
  | conv
  | depthwiseConv
  | transposedConv
  | dense
  | gemm
  | pooling (kind : PoolKind)
  | batchNorm
  | activation
  | add
  | multiply
  | concatenate
  | flatten
  | reshape
  | pad
  | upSample
  | zeroPad
  | calculate
  | custom (layer : CustomLayer)
  | sequential
  | dropout
  deriving DecidableEq

namespace Family

def ofKerasOp? : String → Option Family
  | "InputLayer" => some .input
  | "Conv2D" => some .conv
  | "DepthwiseConv2D" => some .depthwiseConv
  | "Conv2DTranspose" => some .transposedConv
  | "Dense" => some .dense
  | "AveragePooling2D" => some (.pooling .average)
  | "MaxPooling2D" | "MaxPool2D" => some (.pooling .max)
  | "BatchNormalization" => some .batchNorm
  | "Activation" | "ReLU" | "LeakyReLU" => some .activation
  | "Add" => some .add
  | "Multiply" => some .multiply
  | "Concatenate" => some .concatenate
  | "Flatten" => some .flatten
  | "Reshape" => some .reshape
  | "UpSampling2D" => some .upSample
  | "ZeroPadding2D" => some .zeroPad
  | "Calculate" => some .calculate
  | "Sequential" | "Functional" | "Model" => some .sequential
  | "Dropout" => some .dropout
  | _ => none

def ofOnnxOp? : String → Option Family
  | "Input" => some .input
  | "Conv" => some .conv
  | "DepthwiseConv2D" => some .depthwiseConv
  | "ConvTranspose" => some .transposedConv
  | "Gemm" => some .gemm
  | "AveragePool" => some (.pooling .average)
  | "MaxPool" => some (.pooling .max)
  | "BatchNormalization" => some .batchNorm
  | "Relu" | "Clip" | "LeakyRelu" | "Sigmoid" | "Tanh" | "Swish" => some .activation
  | "Add" => some .add
  | "Mul" => some .multiply
  | "Concat" => some .concatenate
  | "Flatten" => some .flatten
  | "Reshape" => some .reshape
  | "Pad" => some .pad
  | "UpSampling2D" => some .upSample
  | "Dropout" => some .dropout
  | _ => none

/-- The built-in family of an operator. -/
def ofOp? (format : ModelFormat) (opType : String) : Option Family :=
  match format with
  | .keras => ofKerasOp? opType
  | .onnx => ofOnnxOp? opType

/-- The family of an operator, built in or described by custom objects. -/
def resolve (format : ModelFormat) (custom : CustomObjects) (opType : String) :
    Except ConvertError Family :=
  match ofOp? format opType with
  | some family => .ok family
  | none =>
    match custom.layer? opType with
    | some layer => .ok (.custom layer)
    | none => .error (.unsupportedLayer opType)

end Family

end LayerGraph
