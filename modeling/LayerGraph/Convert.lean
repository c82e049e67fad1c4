import LayerGraph.Document
import LayerGraph.Fusion
import LayerGraph.Layer
import LayerGraph.Link
import LayerGraph.Normal
import LayerGraph.Reclassify

/-!
# Conversion of a graph

A node list becomes a document in five steps: normalization, reclassification, a walk
over the live nodes that fuses and reads layers as it goes, the writing of the records,
and linking. The walk visits a node once; if the node is kept its layer is read at once,
but the record is written after the walk, when all that the node absorbs has been
absorbed, and only if the node is still there.
-/

namespace LayerGraph

/-- What a conversion consults besides the graph itself. -/
structure ConvertContext where
  format : ModelFormat
  policy : FusionPolicy := .standard
  custom : CustomObjects := {}

namespace ConvertContext

def fusion (cx : ConvertContext) : FusionContext := ⟨cx.format, cx.policy, cx.custom⟩

def layer (cx : ConvertContext) (shapes : Entries (List Int)) : LayerContext :=
  ⟨cx.format, shapes, cx.custom⟩

end ConvertContext

namespace Graph

/-- Visits the nodes at some positions in order, fuses them and reads the layers of those
that are kept. -/
def readLayers (cx : ConvertContext) (shapes : Entries (List Int)) :
    Graph → List Nat → Except ConvertError (Graph × List (Nat × Layer))
  | g, [] => .ok (g, [])
  | g, id :: ids =>
    match g.node? id with
    | none => readLayers cx shapes g ids
    | some n =>
      if n.deleted then readLayers cx shapes g ids
      else do
        let family ← Family.resolve cx.format cx.custom n.opType
        match ← g.fuseNode cx.fusion id family with
        | (g, .kept) =>
          let layer ← Layer.read (cx.layer shapes) family n
          let (g, layers) ← readLayers cx shapes g ids
          return (g, (id, layer) :: layers)
        | (g, _) => readLayers cx shapes g ids

/-- The records of the layers whose nodes are still there. -/
def records (g : Graph) (layers : List (Nat × Layer)) : List Record :=
  layers.filterMap fun (id, layer) =>
    ((g.node? id).filter fun n => !n.deleted).map layer.record

end Graph

/-- The records of a node list, linked by nothing but names. -/
def unlinkedRecords (cx : ConvertContext) (shapes : Entries (List Int)) (nodes : List Node) :
    Except ConvertError (List Record) := do
  let g ← normalize cx.format nodes
  let g := g.reclassify cx.format
  let (g, layers) ← g.readLayers cx shapes g.liveIds
  return g.records layers

/-- **The conversion** of a node list, with the shapes that are known of it. -/
def convert (cx : ConvertContext) (nodes : List Node) (shapes : Entries (List Int)) :
    Except ConvertError Document := do
  match Record.linkAll (← unlinkedRecords cx shapes nodes) with
  | (records, none) => return ⟨records, none⟩
  | (_, some fault) => throw (.invalidGraph fault)

end LayerGraph
