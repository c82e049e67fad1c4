import LayerGraph.Layer.Basic

/-!
# Layers that work place by place

Activations and batch normalizations that no other node absorbed, and the layers that
join several operands: sums and products, which may absorb an activation, and
concatenations.
-/

namespace LayerGraph

/-- An activation on its own. -/
def ActivationPart.record (a : Option ActivationPart) (n : Node) : Record :=
  (n.record "Activation").fill
    [("activation", a.map fun a => .str a.name), ("alpha", (a.bind (·.alpha)).map Json.ofSingle)]

/-- A batch normalization on its own. -/
def NormPart.record (p : Option NormPart) (n : Node) : Record :=
  { (n.record "BatchNormalization").fill
      [("epsilon", (p.bind (·.epsilon)).map Json.ofSingle)] with
    norm := p.map NormPart.params }

/-- The sum or product of operands of one shape. -/
def Node.elementwiseRecord (n : Node) (type : String) : Record :=
  let act := n.absorbed.activation
  { (n.record type).fill
      [("activation", act.map fun a => .str a.name),
        ("alpha", (act.bind (·.alpha)).map Json.ofSingle),
        ("act_name", act.map fun a => .str a.source)] with
    planeRule := .first }

/-- The axis along which operands are put together: the last one, where the model has a
default. -/
def Node.concatAxis? (n : Node) : ModelFormat → Option Int
  | .keras => some ((n.attrs.int? "axis").getD (-1))
  | .onnx => n.attrs.int? "axis"

def Node.concatRecord (n : Node) (axis : Option Int) : Record :=
  (n.record "Concatenate").fill [("axis", axis.map .int)]

end LayerGraph
