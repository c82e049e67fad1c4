import LayerGraph.Error
import LayerGraph.Graph
import LayerGraph.Record

/-!
# Linking records

The engine knows records by position. Linking turns the names of the operands into
positions and lets the plane counts flow from the inputs down. Records have to be in the
order of their dependencies: a name must belong to a record that comes before, and a name
borne by several belongs to the last of them, wherever that is.

Linking stops at the first operand it cannot settle. The records before it are linked by
then, the others are as they were.
-/

namespace LayerGraph

namespace Record

/-- The position of an operand of the `i`-th record. -/
def operandId (names : List String) (i : Nat) (record : String) (operand : String) :
    Except GraphFault Nat :=
  match lastPosition? operand names with
  | none => .error (.unknownReference record operand)
  | some j => if j < i then .ok j else .error (.laterReference record i operand j)

/-- The positions of all operands, or what is wrong with the first bad one. -/
def operandIds (names : List String) (i : Nat) (record : String) :
    List String → Except GraphFault (List Nat)
  | [] => .ok []
  | operand :: operands => do
    let j ← operandId names i record operand
    return j :: (← operandIds names i record operands)

/-- The planes that come in, when the linked records before are `done`. A sum is not bounded here;
it is taken to fit in the word of 32 bits that planes are counted in. -/
def incoming (done : List Record) (rule : PlaneRule) (ids : List Nat) : Nat :=
  let planesOf (j : Nat) : Nat := (done[j]?.map planes).getD 0
  match rule, ids with
  | _, [] => 0
  | .first, j :: _ => planesOf j
  | .sum, ids => ids.foldr (fun j total => planesOf j + total) 0

/-- A record linked to the records before it. -/
def link (names : List String) (done : List Record) (r : Record) : Except GraphFault Record :=
  match operandIds names done.length r.name r.inbounds with
  | .error e => .error e
  | .ok ids =>
    let inputPlanes := incoming done r.planeRule ids
    .ok { r with
      inputIds := ids
      numInputs := ids.length
      inputPlanes := inputPlanes
      outputPlanes := some (r.outputPlanes.getD inputPlanes) }

/-- Links the records that follow the linked ones. -/
def linkFrom (names : List String) : List Record → List Record → List Record × Option GraphFault
  | done, [] => (done, none)
  | done, r :: rs =>
    match r.link names done with
    | .ok r => linkFrom names (done ++ [r]) rs
    | .error e => (done ++ r :: rs, some e)

/-- **Linking** a list of records: the records as far as they could be linked, and what
is wrong if that is not all of them. -/
def linkAll (records : List Record) : List Record × Option GraphFault :=
  linkFrom (records.map Record.name) [] records

end Record

end LayerGraph
