import LayerGraph.Node

/-!
# Graphs

A graph is its nodes in the order of their declaration. A node is known by its
position, which never changes, and its operands are known by name; a name belongs to
the last node that bears it. Nodes leave a graph by being marked: a deleted node keeps
its position and its name, so that nothing else has to move, but it feeds nothing and
nothing is rewritten in it any more.

The one rewriting of operands is `Graph.splice`, a substitution of names in all live
nodes.
-/

namespace LayerGraph

structure Graph where
  nodes : List Node
  deriving Inhabited

/-- Replaces every occurrence of `removed` by `names`, in its place. -/
def substitute (removed : String) (names : List String) (xs : List String) : List String :=
  xs.flatMap fun x => if x = removed then names else [x]

/-- The last position in a list of names. -/
def lastPosition? (name : String) : List String → Option Nat
  | [] => none
  | x :: xs =>
    match lastPosition? name xs with
    | some i => some (i + 1)
    | none => if x = name then some 0 else none

namespace Graph

/-- Adds a node after all others; its position is the former number of nodes. -/
def add (g : Graph) (n : Node) : Graph := ⟨g.nodes ++ [n]⟩

/-- The node a name belongs to, deleted or not. -/
def find? (g : Graph) (name : String) : Option Nat := lastPosition? name (g.nodes.map Node.name)

def node? (g : Graph) (id : Nat) : Option Node := g.nodes[id]?

/-- The positions of the nodes with a property, in order. -/
def idsWhere (g : Graph) (p : Node → Bool) : List Nat :=
  (g.nodes.zipIdx.filter fun (n, _) => p n).map Prod.snd

/-- The positions of the nodes that are not deleted. -/
def liveIds (g : Graph) : List Nat := g.idsWhere fun n => !n.deleted

def live (g : Graph) : List Node := g.nodes.filter fun n => !n.deleted

/-- The live node a name belongs to. -/
def get? (g : Graph) (name : String) : Option Node :=
  ((g.find? name).bind g.node?).filter fun n => !n.deleted

/-- The live nodes that have `name` among their operands. -/
def users (g : Graph) (name : String) : List Nat :=
  g.idsWhere fun n => !n.deleted && n.inputs.contains name

def modify (g : Graph) (id : Nat) (f : Node → Node) : Graph := ⟨g.nodes.modify id f⟩

/-- **Splicing**: every reference of a live node to `removed` becomes the names given, in
the slot of the reference. -/
def splice (g : Graph) (removed : String) (names : List String) : Graph :=
  ⟨g.nodes.map fun n =>
    if n.deleted then n else { n with inbound := n.inbound.map (substitute removed names) }⟩

/-- Marks a node as deleted. -/
def remove (g : Graph) (id : Nat) : Graph := g.modify id fun n => { n with deleted := true }

end Graph

end LayerGraph
