import LayerGraph.Error
import LayerGraph.Model.Wire

/-!
# The messages of a model

The part of the schema of computation graphs that is read. A message that is given twice
is merged: a number or string is replaced, lists are appended, a nested message is merged
in turn. Every message type has a function that takes in one field; numbers it does not
know are skipped, and a known number with a value of the wrong kind spoils the whole
model.
-/

namespace LayerGraph

open Wire

/-- Merges the fields of a message at some depth into what is known of it. -/
def mergeFields {α : Type} (step : α → Entry → Option α) (depth : Nat) (init : α) (bs : Bytes) :
    Option α := do
  (← fields depth bs).foldlM step init

/-- Merges a nested message. -/
def mergeNested {α : Type} (step : α → Entry → Option α) (depth : Nat) (init : α) (p : Payload) :
    Option α := do
  mergeFields step depth init (← p.bytes?)

/-! ### Tensors -/

structure TensorMessage where
  dims : List Int := []
  dataType : Int := 0
  singles : List Single := []
  ints32 : List Int := []
  ints64 : List Int := []
  name : String := ""
  raw : Bytes := []
  doubles : List Double := []
  deriving Inhabited

def TensorMessage.step (t : TensorMessage) (e : Entry) : Option TensorMessage :=
  match e.number with
  | 1 => e.payload.ints64?.map fun xs => { t with dims := t.dims ++ xs }
  | 2 => e.payload.int32?.map fun n => { t with dataType := n }
  | 4 => e.payload.singles?.map fun xs => { t with singles := t.singles ++ xs }
  | 5 => e.payload.ints32?.map fun xs => { t with ints32 := t.ints32 ++ xs }
  | 7 => e.payload.ints64?.map fun xs => { t with ints64 := t.ints64 ++ xs }
  | 8 => e.payload.string?.map fun s => { t with name := s }
  | 9 => e.payload.bytes?.map fun bs => { t with raw := bs }
  | 10 => e.payload.doubles?.map fun xs => { t with doubles := t.doubles ++ xs }
  | _ => some t

/-! ### Attributes -/

structure AttributeMessage where
  name : String := ""
  f : Single := .zero
  i : Int := 0
  s : Bytes := []
  t : Option TensorMessage := none
  floats : List Single := []
  ints : List Int := []
  strings : List Bytes := []
  type : Int := 0
  deriving Inhabited

def AttributeMessage.step (a : AttributeMessage) (e : Entry) : Option AttributeMessage :=
  match e.number with
  | 1 => e.payload.string?.map fun s => { a with name := s }
  | 2 => e.payload.single?.map fun x => { a with f := x }
  | 3 => e.payload.int64?.map fun n => { a with i := n }
  | 4 => e.payload.bytes?.map fun bs => { a with s := bs }
  | 5 => (mergeNested TensorMessage.step 4 (a.t.getD {}) e.payload).map
      fun t => { a with t := some t }
  | 7 => e.payload.singles?.map fun xs => { a with floats := a.floats ++ xs }
  | 8 => e.payload.ints64?.map fun xs => { a with ints := a.ints ++ xs }
  | 9 => e.payload.bytes?.map fun bs => { a with strings := a.strings ++ [bs] }
  | 20 => e.payload.int32?.map fun n => { a with type := n }
  | _ => some a

/-! ### Operators -/

structure OperatorMessage where
  input : List String := []
  output : List String := []
  name : String := ""
  opType : String := ""
  attributes : List AttributeMessage := []
  domain : String := ""
  deriving Inhabited

def OperatorMessage.step (n : OperatorMessage) (e : Entry) : Option OperatorMessage :=
  match e.number with
  | 1 => e.payload.string?.map fun s => { n with input := n.input ++ [s] }
  | 2 => e.payload.string?.map fun s => { n with output := n.output ++ [s] }
  | 3 => e.payload.string?.map fun s => { n with name := s }
  | 4 => e.payload.string?.map fun s => { n with opType := s }
  | 5 => (mergeNested AttributeMessage.step 3 {} e.payload).map
      fun a => { n with attributes := n.attributes ++ [a] }
  | 7 => e.payload.string?.map fun s => { n with domain := s }
  | _ => some n

/-! ### Types of values -/

/-- An extent: known, or symbolic. -/
inductive DimensionValue where
  | extent (n : Int)
  | symbol (s : String)

structure DimensionMessage where
  value : Option DimensionValue := none

def DimensionMessage.step (d : DimensionMessage) (e : Entry) : Option DimensionMessage :=
  match e.number with
  | 1 => e.payload.int64?.map fun n => { d with value := some (.extent n) }
  | 2 => e.payload.string?.map fun s => { d with value := some (.symbol s) }
  | _ => some d

structure ShapeMessage where
  dim : List DimensionMessage := []

def ShapeMessage.step (s : ShapeMessage) (e : Entry) : Option ShapeMessage :=
  match e.number with
  | 1 => (mergeNested DimensionMessage.step 6 {} e.payload).map fun d => { s with dim := s.dim ++ [d] }
  | _ => some s

structure TensorTypeMessage where
  elemType : Int := 0
  shape : Option ShapeMessage := none

def TensorTypeMessage.step (t : TensorTypeMessage) (e : Entry) : Option TensorTypeMessage :=
  match e.number with
  | 1 => e.payload.int32?.map fun n => { t with elemType := n }
  | 2 => (mergeNested ShapeMessage.step 5 (t.shape.getD {}) e.payload).map
      fun s => { t with shape := some s }
  | _ => some t

structure TypeMessage where
  tensorType : Option TensorTypeMessage := none

def TypeMessage.step (t : TypeMessage) (e : Entry) : Option TypeMessage :=
  match e.number with
  | 1 => (mergeNested TensorTypeMessage.step 4 (t.tensorType.getD {}) e.payload).map
      fun x => { t with tensorType := some x }
  | _ => some t

structure ValueMessage where
  name : String := ""
  type : Option TypeMessage := none

def ValueMessage.step (v : ValueMessage) (e : Entry) : Option ValueMessage :=
  match e.number with
  | 1 => e.payload.string?.map fun s => { v with name := s }
  | 2 => (mergeNested TypeMessage.step 3 (v.type.getD {}) e.payload).map
      fun t => { v with type := some t }
  | _ => some v

/-! ### Graphs and models -/

structure GraphMessage where
  node : List OperatorMessage := []
  name : String := ""
  initializer : List TensorMessage := []
  input : List ValueMessage := []
  output : List ValueMessage := []
  valueInfo : List ValueMessage := []

def GraphMessage.step (g : GraphMessage) (e : Entry) : Option GraphMessage :=
  match e.number with
  | 1 => (mergeNested OperatorMessage.step 2 {} e.payload).map fun n => { g with node := g.node ++ [n] }
  | 2 => e.payload.string?.map fun s => { g with name := s }
  | 5 => (mergeNested TensorMessage.step 2 {} e.payload).map
      fun t => { g with initializer := g.initializer ++ [t] }
  | 11 => (mergeNested ValueMessage.step 2 {} e.payload).map fun v => { g with input := g.input ++ [v] }
  | 12 => (mergeNested ValueMessage.step 2 {} e.payload).map fun v => { g with output := g.output ++ [v] }
  | 13 => (mergeNested ValueMessage.step 2 {} e.payload).map
      fun v => { g with valueInfo := g.valueInfo ++ [v] }
  | _ => some g

/-- An operator set; nothing of it is used, but it has to be well formed. -/
structure OperatorSetMessage where
  domain : String := ""
  version : Int := 0

def OperatorSetMessage.step (o : OperatorSetMessage) (e : Entry) : Option OperatorSetMessage :=
  match e.number with
  | 1 => e.payload.string?.map fun s => { o with domain := s }
  | 2 => e.payload.int64?.map fun n => { o with version := n }
  | _ => some o

structure ModelMessage where
  irVersion : Int := 0
  operatorSets : List OperatorSetMessage := []
  producerName : String := ""
  graph : Option GraphMessage := none

namespace ModelMessage

def step (m : ModelMessage) (e : Entry) : Option ModelMessage :=
  match e.number with
  | 1 => e.payload.int64?.map fun n => { m with irVersion := n }
  | 2 => e.payload.string?.map fun s => { m with producerName := s }
  | 7 => (mergeNested GraphMessage.step 1 (m.graph.getD {}) e.payload).map
      fun g => { m with graph := some g }
  | 8 => (mergeNested OperatorSetMessage.step 1 {} e.payload).map
      fun o => { m with operatorSets := m.operatorSets ++ [o] }
  | _ => some m

/-- The model in some bytes. No bytes are an empty model. -/
def decode (bs : Bytes) : Except LoadError ModelMessage :=
  match mergeFields step 0 {} bs with
  | some m => .ok m
  | none => .error .undecodable

end ModelMessage

end LayerGraph
