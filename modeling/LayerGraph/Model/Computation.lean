import LayerGraph.Model.Message
import LayerGraph.Model.Network

/-!
# Models given by a computation graph

A computation graph has tensors by name: initial ones, constant ones, and those that
operators put out. An operator becomes a node that is fed by the producers of its
operands; operands that are initial or constant tensors are its weights, and the full
list of operands is kept as an attribute, so that weights are found by position. The
first input of the graph that is not an initial tensor becomes the input node.
-/

namespace LayerGraph

/-! ### Tensors -/

namespace TensorMessage

/-- The values of a tensor: those of its typed field, or those in its raw bytes. -/
def values (t : TensorMessage) (dims : List Nat) : Except LoadError Tensor :=
  match t.dataType with
  | 1 => .ok (if t.raw.isEmpty then ⟨dims, t.singles⟩ else .ofSingleBytes dims t.raw)
  | 6 => .ok (if t.raw.isEmpty then ⟨dims, t.ints32.map Floating.ofInt⟩
      else .ofIntBytes 4 dims t.raw)
  | 7 => .ok (if t.raw.isEmpty then ⟨dims, t.ints64.map Floating.ofInt⟩
      else .ofIntBytes 8 dims t.raw)
  | 11 => .ok (if t.raw.isEmpty then ⟨dims, t.doubles.map Floating.toSingle⟩
      else .ofDoubleBytes dims t.raw)
  | dataType => .error (.unsupportedDataType t.name dataType)

/-- The tensor of a message; its values have to fill its shape. The product of the extents is not
bounded here; it is taken to fit in the word of 64 bits that places are counted in. -/
def tensor (t : TensorMessage) : Except LoadError Tensor :=
  match t.values (t.dims.map Int.toNat) with
  | .error e => .error e
  | .ok x =>
    if places x.dims = x.data.length then .ok x
    else .error (.invalidConfig (.tensorSize t.name x.data.length x.dims (places x.dims)))

end TensorMessage

/-! ### Attributes -/

/-- The value of an attribute; tensors are none. Old models leave the type open, and the
first member that is set is taken. -/
def AttributeMessage.value? (a : AttributeMessage) : Option AttrValue :=
  match a.type with
  | 1 => some (.float a.f)
  | 2 => some (.int a.i)
  | 3 => some (.str (Utf8.decodeLossy a.s))
  | 4 => none
  | 6 => some (.floats a.floats)
  | 7 => some (.ints a.ints)
  | 8 => some (.strs (a.strings.map Utf8.decodeLossy))
  | _ =>
    some (if !a.ints.isEmpty then .ints a.ints
      else if !a.floats.isEmpty then .floats a.floats
      else if !a.s.isEmpty then .str (Utf8.decodeLossy a.s)
      else if !a.f.same .zero then .float a.f
      else .int a.i)

/-! ### Shapes -/

def DimensionMessage.extent (d : DimensionMessage) : Int :=
  match d.value with
  | some (.extent n) => n
  | _ => -1

/-- The shape of a value, if it is declared. -/
def ValueMessage.shape? (v : ValueMessage) : Option (List Int) :=
  ((v.type.bind (·.tensorType)).bind (·.shape)).map fun s => s.dim.map DimensionMessage.extent

/-! ### Graphs -/

namespace OperatorMessage

def isConstant (n : OperatorMessage) : Bool := n.opType = "Constant"

/-- The name and the tensor of a constant, if it has both. -/
def constant? (n : OperatorMessage) : Option (String × TensorMessage) :=
  match n.output.head?, n.attributes.find? fun a => a.name = "value" with
  | some out, some a => a.t.map (out, ·)
  | _, _ => none

/-- The name of an operator; without one it is named by its type and position. -/
def nodeName (n : OperatorMessage) (position : Nat) : String :=
  if n.name.isEmpty then n.opType ++ "_" ++ toString position else n.name

/-- The attributes of an operator, with the list of its operands. -/
def nodeAttributes (n : OperatorMessage) : Attributes :=
  (Entries.ofList (n.attributes.filterMap fun a => a.value?.map (a.name, ·))).set
    "operands" (.strs n.input)

/-- The node of an operator, when the tensors known so far come from `producers`. -/
def node (n : OperatorMessage) (name : String) (known : Entries Tensor)
    (producers : Entries String) : Node where
  name := name
  opType := n.opType
  attrs := n.nodeAttributes
  inbound := some (n.input.filterMap producers.value?)
  weights := Entries.ofList (n.input.filterMap fun i => (known.value? i).map (i, ·))

end OperatorMessage

namespace GraphMessage

/-- Adds named tensors to those known. -/
def addTensors : Entries Tensor → List (String × TensorMessage) → Except LoadError (Entries Tensor)
  | known, [] => .ok known
  | known, (name, t) :: ts =>
    match t.tensor with
    | .ok x => addTensors (known.set name x) ts
    | .error e => .error e

/-- The initial tensors, then the constants. -/
def knownTensors (g : GraphMessage) : Except LoadError (Entries Tensor) :=
  addTensors [] (g.initializer.map (fun t => (t.name, t)) ++
    (g.node.filter OperatorMessage.isConstant).filterMap OperatorMessage.constant?)

/-- The first input that is not a known tensor. -/
def freeInput? (g : GraphMessage) (known : Entries Tensor) : Option ValueMessage :=
  g.input.find? fun v => !known.contains v.name

/-- The nodes of the operators from a position on, and who produces which tensor. -/
def operatorNodes (known : Entries Tensor) :
    Entries String → Nat → List OperatorMessage → List Node × Entries String
  | producers, _, [] => ([], producers)
  | producers, i, n :: ns =>
    if n.isConstant then operatorNodes known producers (i + 1) ns
    else
      let name := n.nodeName i
      let producers' := producers.setAll (n.output.map fun out => (out, name))
      let (nodes, last) := operatorNodes known producers' (i + 1) ns
      (n.node name known producers :: nodes, last)

/-- The input node. -/
def inputNode (name : String) (shape : List Int) : Node where
  name := name
  opType := "Input"
  attrs := [("shape", .ints shape)]
  inbound := some []

/-- Notes the declared shapes of what the nodes put out. -/
def noteShapes (producers : Entries String) (shapes : Entries (List Int))
    (values : List ValueMessage) : Entries (List Int) :=
  shapes.setAll (values.filterMap fun v =>
    match producers.value? v.name, v.shape? with
    | some node, some dims => some (node, dims)
    | _, _ => none)

/-- **Reading** a computation graph as a network. -/
def network (g : GraphMessage) : Except LoadError Network :=
  match g.knownTensors with
  | .error e => .error e
  | .ok known =>
    match g.freeInput? known with
    | none => .error .noInput
    | some input =>
      let shape := input.shape?.getD []
      let (nodes, producers) := operatorNodes known [(input.name, input.name)] 0 g.node
      .ok ⟨inputNode input.name shape :: nodes,
        noteShapes producers [(input.name, shape)] (g.valueInfo ++ g.output)⟩

end GraphMessage

/-- The network of a model. -/
def ModelMessage.load (m : ModelMessage) : Except LoadError Network :=
  match m.graph with
  | some g => g.network
  | none => .error .noGraph

end LayerGraph
