import LayerGraph.Layer.Basic

/-!
# Layers with planes of their own

The input of a network, from whose channels all plane counts follow, the engine's own
`Calculate` layer, and the layers that custom objects describe.
-/

namespace LayerGraph

/-! ### Inputs -/

structure InputLayer where
  shape : Option (List Int) := none
  planes : Option Nat := none

namespace InputLayer

/-- The declared shape and where it has its channels. -/
def declared (format : ModelFormat) (n : Node) : Option (List Int) × Nat :=
  match format with
  | .keras =>
    let shape := (n.attrs.ints? "batch_input_shape").or (n.attrs.ints? "batch_shape")
    (shape, (shape.map fun s => s.length - 1).getD 0)
  | .onnx => (n.attrs.ints? "shape", 1)

def read (format : ModelFormat) (n : Node) : InputLayer :=
  let (shape, axis) := declared format n
  { shape
    planes := ((shape.bind fun s => s[axis]?).filter fun d => 0 < d).map (Word.low 32) }

def record (l : InputLayer) (n : Node) : Record :=
  let dimension (d : Int) : Json := if d < 0 then .null else .int d
  { (n.record "InputLayer").fill
      [("shape", l.shape.map fun s => .arr (s.map dimension))] with
    outputPlanes := l.planes }

end InputLayer

/-! ### The engine's own layer -/

def calculatePlanes : Nat := 3

def Node.calculateRecord (n : Node) : Record :=
  { n.record "Calculate" with outputPlanes := some calculatePlanes }

/-! ### Custom layers -/

/-- The attributes that a description hands on, with constants put in for their
names. -/
def CustomLayer.fields (l : CustomLayer) (custom : CustomObjects) (n : Node) : Entries Json :=
  Entries.ofList (l.attributes.filterMap fun key =>
    (Entries.value? n.attrs key).map fun v => (key, custom.resolve v))

def CustomLayer.record (l : CustomLayer) (fields : Entries Json) (n : Node) : Record :=
  { n.record l.recordType with outputPlanes := l.planes?, fields := fields }

end LayerGraph
