import LayerGraph.Layer.Kernel
import LayerGraph.Layer.Origin
import LayerGraph.Layer.Pointwise
import LayerGraph.Layer.Spatial

/-!
# Layers

A layer is what was read from a node of its family. Every family but containers and
dropouts has layers: these two never survive to be written. `Layer.blank` is a layer
before anything was read, `Layer.read` reads it from a node, and `Layer.record` writes
it.
-/

namespace LayerGraph

inductive Layer where
  | input (l : InputLayer)
  | conv (l : ConvLayer)
  | dense (l : DenseLayer)
  | pool (l : PoolLayer)
  | norm (p : Option NormPart)
  | activation (a : Option ActivationPart)
  | add
  | multiply
  | concatenate (axis : Option Int)
  | flatten
  | reshape (shape : Option (List Int))
  | pad (l : PadLayer)
  | zeroPad (padding : Option Json)
  | upSample (l : UpSampleLayer)
  | calculate
  | custom (l : CustomLayer) (fields : Entries Json)

namespace Layer

/-- A layer of a family before anything was read. -/
def blank : Family → Except ConvertError Layer
  | .input => .ok (.input {})
  | .conv => .ok (.conv { kind := .standard })
  | .depthwiseConv => .ok (.conv { kind := .depthwise })
  | .transposedConv => .ok (.conv { kind := .transposed })
  | .dense | .gemm => .ok (.dense {})
  | .pooling kind => .ok (.pool { kind })
  | .batchNorm => .ok (.norm none)
  | .activation => .ok (.activation none)
  | .add => .ok .add
  | .multiply => .ok .multiply
  | .concatenate => .ok (.concatenate none)
  | .flatten => .ok .flatten
  | .reshape => .ok (.reshape none)
  | .pad => .ok (.pad {})
  | .zeroPad => .ok (.zeroPad none)
  | .upSample => .ok (.upSample {})
  | .calculate => .ok .calculate
  | .custom l => .ok (.custom l [])
  | .sequential => .error (.invalidGraph (.untranslatable "Sequential"))
  | .dropout => .error (.invalidGraph (.untranslatable "Dropout"))

/-- Reads a layer from its node. -/
def ingest (cx : LayerContext) (n : Node) : Layer → Except ConvertError Layer
  | .input _ => .ok (.input (.read cx.format n))
  | .conv l => (ConvLayer.read cx l.kind n).map .conv
  | .dense _ => (DenseLayer.read cx n).map .dense
  | .pool l => .ok (.pool (.read cx l.kind n))
  | .norm _ => (n.normPart cx.format).map fun p => .norm (some p)
  | .activation _ => .ok (.activation (some (n.activationPart cx.format)))
  | .add => .ok .add
  | .multiply => .ok .multiply
  | .concatenate _ => .ok (.concatenate (n.concatAxis? cx.format))
  | .flatten => .ok .flatten
  | .reshape _ => .ok (.reshape (n.targetShape? cx.format))
  | .pad _ => .ok (.pad (.read n))
  | .zeroPad _ => .ok (.zeroPad n.zeroPadding?)
  | .upSample _ => .ok (.upSample (.read cx.format n))
  | .calculate => .ok .calculate
  | .custom l _ => .ok (.custom l (l.fields cx.custom n))

/-- The layer of a family read from its node. -/
def read (cx : LayerContext) (family : Family) (n : Node) : Except ConvertError Layer :=
  match blank family with
  | .ok l => l.ingest cx n
  | .error e => .error e

/-- The record of a layer, with what its node has absorbed. -/
def record (n : Node) : Layer → Record
  | .input l => l.record n
  | .conv l => l.record n
  | .dense l => l.record n
  | .pool l => l.record n
  | .norm p => NormPart.record p n
  | .activation a => ActivationPart.record a n
  | .add => n.elementwiseRecord "Add"
  | .multiply => n.elementwiseRecord "Multiply"
  | .concatenate axis => n.concatRecord axis
  | .flatten => n.record "Flatten"
  | .reshape shape => n.reshapeRecord shape
  | .pad l => l.record n
  | .zeroPad padding => n.zeroPadRecord padding
  | .upSample l => l.record n
  | .calculate => n.calculateRecord
  | .custom l fields => l.record fields n

end Layer

end LayerGraph
