import LayerGraph.Attribute
import LayerGraph.Tensor

/-!
# Nodes

A node of a network before it is a record: an operator with attributes, weights and
the names of the nodes that feed it. A container holds further nodes. While a graph
is simplified a node absorbs the activation and the batch normalization that follow
it, and is marked as deleted when it is itself absorbed.
-/

namespace LayerGraph

/-! ### What a node absorbs -/

/-- The parameters of a batch normalization, as far as they are present. -/
structure NormParams where
  gamma : Option (List Single) := none
  beta : Option (List Single) := none
  mean : Option (List Single) := none
  variance : Option (List Single) := none
  deriving DecidableEq, Inhabited

/-- The present parameters with their names, in the order of the weight stream. -/
def NormParams.parts (p : NormParams) : Entries (List Single) :=
  [("gamma", p.gamma), ("beta", p.beta), ("moving_mean", p.mean),
    ("moving_variance", p.variance)].filterMap fun (name, part) => part.map (name, ·)

/-- An activation: its canonical name, its parameter, and the node it came from. -/
structure ActivationPart where
  name : String
  alpha : Option Single
  source : String
  deriving DecidableEq, Inhabited

/-- A batch normalization and the node it came from. -/
structure NormPart where
  params : NormParams
  epsilon : Option Single
  source : String
  deriving DecidableEq, Inhabited

/-- What a node hands over when it is absorbed. -/
inductive Contribution where
  | activation (a : ActivationPart)
  | norm (n : NormPart)
  deriving DecidableEq

/-- What a node has absorbed. -/
structure Absorbed where
  activation : Option ActivationPart := none
  norm : Option NormPart := none
  deriving DecidableEq, Inhabited

namespace Absorbed

/-- **The terminal rule**: at most one activation and one batch normalization, and
after an activation nothing. -/
def accepts (a : Absorbed) : Contribution → Bool
  | .activation _ => a.activation.isNone
  | .norm _ => a.norm.isNone && a.activation.isNone

def absorb (a : Absorbed) : Contribution → Absorbed
  | .activation x => { a with activation := some x }
  | .norm x => { a with norm := some x }

end Absorbed

/-! ### Nodes -/

structure Node where
  name : String
  opType : String
  attrs : Attributes := []
  /-- The nodes that feed the operands, in operand order; nothing if the model leaves
  them to the order of declaration. -/
  inbound : Option (List String) := none
  weights : Entries Tensor := []
  /-- The inner nodes of a container. -/
  children : List Node := []
  absorbed : Absorbed := {}
  deleted : Bool := false
  deriving Inhabited

namespace Node

/-- The names of the feeding nodes. -/
def inputs (n : Node) : List String := n.inbound.getD []

/-- The names of all operands, weights included, where the model lists them. -/
def operands (n : Node) : List String := (n.attrs.strs? "operands").getD n.inputs

/-- The weight bound to an operand. -/
def operandWeight? (n : Node) (k : Nat) : Option Tensor :=
  match n.attrs.strs? "operands" with
  | some ops => ops[k]?.bind fun name => Entries.value? n.weights name
  | none => none

/-- Whether the layer itself declares an activation other than the identity. -/
def declaresActivation (n : Node) : Bool :=
  match n.attrs.str? "activation" with
  | some act => act != "linear"
  | none => false

/-- Whether a contribution can be merged into this node. A batch normalization never
follows an activation, absorbed or declared. -/
def accepts (n : Node) (c : Contribution) : Bool :=
  n.absorbed.accepts c &&
    match c with
    | .activation _ => true
    | .norm _ => !n.declaresActivation

end Node

end LayerGraph
