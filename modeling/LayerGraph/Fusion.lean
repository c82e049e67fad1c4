import LayerGraph.Contribution
import LayerGraph.Graph

/-!
# Fusion

Fusion visits the nodes of a graph in the order of their declaration. A dropout is
*elided*: whoever refers to it refers to its operands instead. A node that the policy
calls fusible and that has something to contribute is *absorbed* by the first of its
operands that the policy names and that still accepts the contribution; its users are
handed to the node that absorbed it. All others are kept.

A visit that fails leaves the graph as it was, and so does one that keeps the node. What
`Graph.fuseFrom` did before a failing visit stays done, so it returns the graph beside
the outcome.
-/

namespace LayerGraph

/-- What became of a visited node. -/
inductive Outcome where
  | kept
  /-- It was absorbed by the node at a position. -/
  | absorbedBy (target : Nat)
  | elided
  deriving DecidableEq

/-- The rules a fusion goes by. -/
structure FusionContext where
  format : ModelFormat
  policy : FusionPolicy
  custom : CustomObjects

namespace Graph

/-- Whether the node at a position may absorb a contribution under a rule. -/
def qualifies (g : Graph) (rule : FusionRule) (c : Contribution) (id : Nat) : Bool :=
  match g.node? id with
  | some target => !target.deleted && rule.fusesInto target.opType && target.accepts c
  | none => false

/-- The first of some operands that may absorb a contribution. -/
def target? (g : Graph) (rule : FusionRule) (c : Contribution) (operands : List String) :
    Option Nat :=
  operands.findSome? fun name => (g.find? name).filter (g.qualifies rule c)

/-- Drops the node at a position and hands its operands to its users. -/
def elide (g : Graph) (id : Nat) (n : Node) : Graph := (g.splice n.name n.inputs).remove id

/-- Merges the node at a position into the target. -/
def merge (g : Graph) (id : Nat) (n : Node) (c : Contribution) (target : Nat) : Graph :=
  match g.node? target with
  | some t =>
    ((g.modify target fun t => { t with absorbed := t.absorbed.absorb c }).splice
      n.name [t.name]).remove id
  | none => g

/-- **A visit** to the node at a position, taken to be of the given family. -/
def fuseNode (cx : FusionContext) (g : Graph) (id : Nat) (family : Family) :
    Except ConvertError (Graph × Outcome) :=
  match g.node? id with
  | none => .ok (g, .kept)
  | some n =>
    if n.deleted then .ok (g, .kept)
    else if family = .dropout then .ok (g.elide id n, .elided)
    else match cx.policy.rule? cx.format n.opType with
      | none => .ok (g, .kept)
      | some rule =>
        if !rule.isFusible then .ok (g, .kept)
        else match n.contribution? cx.format family with
          | .error e => .error e
          | .ok none => .ok (g, .kept)
          | .ok (some c) =>
            match g.target? rule c n.inputs with
            | none => .ok (g, .kept)
            | some target => .ok (g.merge id n c target, .absorbedBy target)

/-- Visits the nodes at some positions in order, those without a family apart. The graph
comes with the number of nodes that left it, or with the error that ended the run. -/
def fuseFrom (cx : FusionContext) : Graph → List Nat → Graph × Except ConvertError Nat
  | g, [] => (g, .ok 0)
  | g, id :: ids =>
    match (g.node? id).map fun n => Family.resolve cx.format cx.custom n.opType with
    | some (.ok family) =>
      match g.fuseNode cx id family with
      | .error e => (g, .error e)
      | .ok (g, outcome) =>
        let (g, count) := fuseFrom cx g ids
        (g, count.map fun k => if outcome = .kept then k else k + 1)
    | _ => fuseFrom cx g ids

/-- **Fusion** of a whole graph. -/
def fuse (cx : FusionContext) (g : Graph) : Graph × Except ConvertError Nat :=
  fuseFrom cx g g.liveIds

end Graph

end LayerGraph
