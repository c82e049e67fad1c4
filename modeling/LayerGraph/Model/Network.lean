import LayerGraph.Node

/-!
# Networks

What is read from a model of either format: the nodes in order, and the shapes that are
known of what they put out, under the names of the nodes. An unknown dimension is -1.
-/

namespace LayerGraph

structure Network where
  nodes : List Node := []
  shapes : Entries (List Int) := []

end LayerGraph
