/-!
# Model formats

The two kinds of models that can be read. They differ in their operator names, in the
order of the axes and in where a node keeps its weights, so nearly every rule of the
converter is a rule per format.
-/

namespace LayerGraph

inductive ModelFormat where
  /-- Layers with named configuration entries and named variables, channels last. -/
  | keras
  /-- Operators with positional operands, channels second. -/
  | onnx
  deriving DecidableEq

/-- The name of a format in messages. -/
def ModelFormat.title : ModelFormat → String
  | .keras => "Keras"
  | .onnx => "Onnx"

end LayerGraph
