import LayerGraph.Container
import LayerGraph.Error
import LayerGraph.Swish

/-!
# The normal form of a node list

All later stages rely on a flat graph in which every node lists its operands and every
name is borne once. `normalize` brings a node list into that form: containers are
flattened, a node that leaves its operands open is fed by the node declared before it,
repeated names are refused, and in models with positional operands the swish pattern is
contracted.
-/

namespace LayerGraph

/-- Feeds every node without an operand list by the node declared before it; the first
node is fed by none. -/
def feedInOrder : Option String → List Node → List Node
  | _, [] => []
  | previous, n :: ns =>
    { n with inbound := some (n.inbound.getD previous.toList) } :: feedInOrder (some n.name) ns

/-- The first name that was seen before. -/
def firstRepeated? : List String → List String → Option String
  | _, [] => none
  | seen, name :: names =>
    if seen.contains name then some name else firstRepeated? (name :: seen) names

/-- **Normalization** of a node list, as read from a model of the given format. -/
def normalize (format : ModelFormat) (nodes : List Node) : Except ConvertError Graph :=
  let nodes := feedInOrder none (flatten nodes)
  match firstRepeated? [] (nodes.map Node.name) with
  | some name => .error (.invalidGraph (.duplicateName name))
  | none =>
    match format with
    | .keras => .ok ⟨nodes⟩
    | .onnx => .ok (Graph.contractSwish ⟨nodes⟩).1

end LayerGraph
