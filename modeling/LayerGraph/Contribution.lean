import LayerGraph.Family
import LayerGraph.Node

/-!
# What a node contributes

The activation or batch normalization that a node stands for, whether it is absorbed by
another node or written on its own. Activations are known by canonical names; only the
leaky rectifier has a parameter. Batch normalizations need their moving statistics, scale
and offset may be absent.
-/

namespace LayerGraph

namespace Node

/-! ### Activations -/

/-- The slope of a leaky rectifier that does not give one. -/
def kerasLeakyAlpha : Single := Floating.ofDecimal false ⟨3, -1⟩

def onnxLeakyAlpha : Single := Floating.ofDecimal false ⟨1, -2⟩

/-- The canonical name of the activation of a node, and its parameter. -/
def kerasActivation (n : Node) : String × Option Single :=
  match n.opType with
  | "LeakyReLU" => ("leakyRelu", some ((n.attrs.float? "alpha").getD kerasLeakyAlpha))
  | "ReLU" =>
    match n.attrs.float? "max_value" with
    | some m => if m.same (.ofInt 6) then ("relu6", none) else ("relu", none)
    | none => ("relu", none)
  | _ => ((n.attrs.str? "activation").getD "linear", none)

def onnxActivation (n : Node) : String × Option Single :=
  match n.opType with
  | "LeakyRelu" => ("leakyRelu", some ((n.attrs.float? "alpha").getD onnxLeakyAlpha))
  | "Clip" => ("relu6", none)
  | op => (String.ofList (op.toList.map Char.toLower), none)

def activationPart (n : Node) (format : ModelFormat) : ActivationPart :=
  let (name, alpha) := match format with
    | .keras => n.kerasActivation
    | .onnx => n.onnxActivation
  ⟨name, alpha, n.name⟩

/-! ### Batch normalizations -/

/-- The parameters of a batch normalization: named variables, or operands in the order
scale, offset, mean, variance. -/
def normParams (n : Node) : ModelFormat → NormParams
  | .keras =>
    let part (name : String) := (Entries.value? n.weights name).map Tensor.data
    ⟨part "gamma", part "beta", part "moving_mean", part "moving_variance"⟩
  | .onnx =>
    let part (k : Nat) := (n.operandWeight? k).map Tensor.data
    ⟨part 1, part 2, part 3, part 4⟩

def normPart (n : Node) (format : ModelFormat) : Except ConvertError NormPart :=
  let params := n.normParams format
  if params.mean.isNone || params.variance.isNone then
    .error (.invalidLayer n.name .missingStatistics)
  else .ok ⟨params, n.attrs.float? "epsilon", n.name⟩

/-! ### Contributions -/

/-- What a node of a family hands over when it is absorbed; most families hand over
nothing. -/
def contribution? (n : Node) (format : ModelFormat) : Family → Except ConvertError (Option Contribution)
  | .activation => .ok (some (.activation (n.activationPart format)))
  | .batchNorm =>
    match n.normPart format with
    | .ok part => .ok (some (.norm part))
    | .error e => .error e
  | _ => .ok none

end Node

end LayerGraph
