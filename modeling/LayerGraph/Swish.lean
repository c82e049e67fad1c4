import LayerGraph.Graph

/-!
# The swish pattern

A sigmoid of `x` followed at once by the product of `x` with that sigmoid is a single
activation, swish. Contracting the pattern keeps the node of the sigmoid, under its own
name and with its own operand, and hands the users of the product over to it.

The pairs tried are the neighbours in the list of live nodes as it stands before the
first contraction, in order; each looks at the graph as the earlier ones left it.
-/

namespace LayerGraph

/-- Whether two nodes are the sigmoid and the product of a swish. -/
def isSwishPair (sigmoid product : Node) : Bool :=
  !sigmoid.deleted && sigmoid.opType = "Sigmoid" && product.opType = "Mul" &&
    match sigmoid.inputs with
    | [] => false
    | x :: _ => product.inputs.contains sigmoid.name && product.inputs.contains x

namespace Graph

/-- Contracts the pair at two positions; nothing if it is no swish. -/
def contractPair? (g : Graph) (i j : Nat) : Option Graph :=
  match g.node? i, g.node? j with
  | some sigmoid, some product =>
    if isSwishPair sigmoid product then
      some (((g.modify i fun n => { n with opType := "Swish" }).splice
        product.name [sigmoid.name]).remove j)
    else none
  | _, _ => none

/-- Contracts the pairs of a list in order and counts them. -/
def contractPairs : Graph → List (Nat × Nat) → Graph × Nat
  | g, [] => (g, 0)
  | g, (i, j) :: ps =>
    match g.contractPair? i j with
    | some g' => let (h, k) := contractPairs g' ps; (h, k + 1)
    | none => contractPairs g ps

/-- **Contracting swish**: all pairs of neighbouring live nodes, and the number of
contractions. -/
def contractSwish (g : Graph) : Graph × Nat :=
  contractPairs g (g.liveIds.zip g.liveIds.tail)

end Graph

end LayerGraph
