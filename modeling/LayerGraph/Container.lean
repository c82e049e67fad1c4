import LayerGraph.Node

/-!
# Containers

Layers may be grouped into containers, to any depth. Flattening puts the leaves of the
whole forest into one list, depth first, and redirects references to a container to
the leaf that ends it: an *alias* takes the name of a container to the name of its last
child, which may be a container with an alias of its own. A container without children
stands for whatever leaf came before it.
-/

namespace LayerGraph

/-- Whether an operator is a mere grouping of layers. -/
def isContainerOp (opType : String) : Bool :=
  opType = "Sequential" || opType = "Functional" || opType = "Model"

/-- The leaves met so far, and the aliases of the containers that have ended. -/
structure Flattening where
  leaves : List Node := []
  aliases : Entries String := []

mutual

/-- Takes in a node with everything inside it. -/
def Flattening.expand (s : Flattening) : Node → Flattening
  | ⟨name, opType, attrs, inbound, weights, [], absorbed, deleted⟩ =>
    if isContainerOp opType then
      match s.leaves.getLast? with
      | some leaf => { s with aliases := s.aliases.set name leaf.name }
      | none => s
    else
      { s with leaves := s.leaves ++ [⟨name, opType, attrs, inbound, weights, [], absorbed, deleted⟩] }
  | ⟨name, _, _, _, _, child :: children, _, _⟩ =>
    let s := (s.expand child).expandAll children
    let last := ((child :: children).getLast (List.cons_ne_nil _ _)).name
    { s with aliases := s.aliases.set name last }

def Flattening.expandAll (s : Flattening) : List Node → Flattening
  | [] => s
  | n :: ns => (s.expand n).expandAll ns

end

/-- Follows aliases, at most so many times. -/
def follow (aliases : Entries String) : Nat → String → String
  | 0, name => name
  | k + 1, name =>
    match aliases.value? name with
    | some target => follow aliases k target
    | none => name

/-- The node that a reference means. No chain of aliases has more links than there are
aliases, unless it runs in a circle. -/
def redirect (aliases : Entries String) (name : String) : String :=
  follow aliases (aliases.length + 1) name

/-- **Flattening**: the leaves of a forest, depth first, with all references to containers
redirected. -/
def flatten (nodes : List Node) : List Node :=
  let s := Flattening.expandAll {} nodes
  s.leaves.map fun n => { n with inbound := n.inbound.map (List.map (redirect s.aliases)) }

end LayerGraph
