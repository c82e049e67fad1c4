import LayerGraph.Node

/-!
# Records

A record is what the engine reads of a layer: its name and type, fields that depend on
the type, weights, and how it is wired. Until the records of a document are linked, the
wiring is only a list of names.
-/

namespace LayerGraph

/-- How the plane count of a record follows from those of its operands. -/
inductive PlaneRule where
  /-- The sum over all operands. -/
  | sum
  /-- That of the first operand. -/
  | first
  deriving DecidableEq

structure KernelWeights where
  kernel : List Single
  bias : Option (List Single) := none
  deriving DecidableEq

structure Record where
  name : String
  type : String
  /-- The records that feed this one, by name. -/
  inbounds : List String := []
  /-- The positions of these records, once they are known. -/
  inputIds : List Nat := []
  numInputs : Nat := 0
  inputPlanes : Nat := 0
  outputPlanes : Option Nat := none
  /-- The fields of the type, in the order in which they are written. -/
  fields : Entries Json := []
  weights : Option KernelWeights := none
  norm : Option NormParams := none
  planeRule : PlaneRule := .sum
  deriving Inhabited

/-- The engine's spelling of a truth value. -/
def engineBool (b : Bool) : String := if b then "True" else "False"

namespace Record

/-- Sets the fields that have a value, in order. -/
def fill (r : Record) (pairs : List (String × Option Json)) : Record :=
  { r with fields := pairs.foldl (fun es p => Entries.set? es p.1 p.2) r.fields }

/-- The planes that go out; without a count of its own a record passes on what comes
in. -/
def planes (r : Record) : Nat := r.outputPlanes.getD r.inputPlanes

/-- The arrays of a record in the order of the weight stream: kernel, bias, then the
parameters of the batch normalization. -/
def arrays (r : Record) : List (List Single) :=
  (match r.weights with
    | some w => w.kernel :: w.bias.toList
    | none => []) ++
  (match r.norm with
    | some p => p.parts.map Prod.snd
    | none => [])

end Record

/-- **The weight stream** of a list of records. -/
def weightStream (records : List Record) : Bytes :=
  records.flatMap fun r => r.arrays.flatMap Bytes.ofSingles

end LayerGraph
