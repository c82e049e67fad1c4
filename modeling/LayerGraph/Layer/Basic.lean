import LayerGraph.Contribution
import LayerGraph.Record

/-!
# From nodes to records

A layer is what its family reads from a node. Reading happens when fusion has settled on
the node; writing the record happens when the whole graph is fused, because only then is
it known what the node has absorbed. What both steps share is here: the model as far as a
layer may look at it, the part of a record that all families have in common, and the
fields for absorbed nodes.
-/

namespace LayerGraph

/-- What a layer may consult besides its own node. -/
structure LayerContext where
  format : ModelFormat
  /-- The known output shapes, by node; an unknown dimension is -1. -/
  shapes : Entries (List Int)
  custom : CustomObjects

namespace Node

/-- A record of a type with the name and the operands of a node. -/
def record (n : Node) (type : String) : Record where
  name := n.name
  type := type
  inbounds := n.inputs

/-- The fields for what a node has absorbed. Without an absorbed activation, the layer's
own is written. -/
def absorbedFields (n : Node) (own : Option String) : List (String × Option Json) :=
  [("useBatchNormalization", some (.str (engineBool n.absorbed.norm.isSome))),
    ("bn_name", n.absorbed.norm.map fun p => .str p.source)] ++
  match n.absorbed.activation with
  | some a =>
    [("act_name", some (.str a.source)), ("activation", some (.str a.name)),
      ("alpha", a.alpha.map Json.ofSingle)]
  | none => [("activation", own.map Json.str)]

/-- The parameters of an absorbed batch normalization. -/
def absorbedParams (n : Node) : Option NormParams := n.absorbed.norm.map NormPart.params

end Node

/-- The first padding entry of an operator, or what its padding mode stands for. -/
def Node.onnxPadding (n : Node) (same valid unset : Json) : Json :=
  match n.attrs.firstInt? "pads" with
  | some p => .int p
  | none =>
    match n.attrs.str? "auto_pad" with
    | some "SAME_UPPER" | some "SAME_LOWER" => same
    | some "VALID" => valid
    | _ => unset

end LayerGraph
