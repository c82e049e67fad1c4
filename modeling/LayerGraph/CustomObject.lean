import LayerGraph.Attribute
import LayerGraph.FusionRule

/-!
# Custom objects

Layers that are not built in can be described in a file of custom objects: under which
operator they appear, under which type they are written, how many planes they have and
which of their attributes are handed on. The file also names constants, which stand for
strings in those attributes.

As with the tables of rules, an object may be given as an array of its entries in
order. The file itself has no entries but `layers` and `constants`; a layer may have
others, which are skipped.
-/

namespace LayerGraph

/-- The description of a layer that is not built in. -/
structure CustomLayer where
  layerType : String
  recordType? : Option String := none
  /-- A fixed number of planes; without it the planes pass through. -/
  planes? : Option Nat := none
  /-- The attributes handed on. -/
  attributes : List String := []
  deriving DecidableEq

/-- The type a custom layer is written under. -/
def CustomLayer.recordType (l : CustomLayer) : String := l.recordType?.getD l.layerType

structure CustomObjects where
  layers : Entries CustomLayer := []
  constants : Entries Json := []

namespace CustomObjects

def layer? (c : CustomObjects) (opType : String) : Option CustomLayer := c.layers.value? opType

def constant? (c : CustomObjects) (name : String) : Option Json := c.constants.value? name

/-- The JSON form of an attribute value; a string that names a constant is the
constant. -/
def resolve (c : CustomObjects) (v : AttrValue) : Json :=
  match v with
  | .str s => (c.constant? s).getD v.toJson
  | _ => v.toJson

end CustomObjects

/-! ### Reading a description -/

namespace CustomLayer

/-- The entries of a description read so far. -/
structure Draft where
  layerType : Option String := none
  recordType : Option (Option String) := none
  planes : Option (Option Nat) := none
  attributes : Option (List String) := none

/-- A string or `null`. -/
def readName : Outline → Except TableError (Option String)
  | .null => .ok none
  | o => do return some (← o.readString)

/-- A whole number of 32 bits or `null`. -/
def readPlanes : Outline → Except TableError (Option Nat)
  | .null => .ok none
  | .number l =>
    match l.value? with
    | some (.int n) => if 0 ≤ n ∧ n < twoPow 32 then .ok (some n.toNat) else .error .malformed
    | _ => .error .malformed
  | _ => .error .malformed

namespace Draft

def setType (d : Draft) (o : Outline) : Except TableError Draft := do
  if d.layerType.isSome then throw .malformed
  return { d with layerType := some (← o.readString) }

def setRecordType (d : Draft) (o : Outline) : Except TableError Draft := do
  if d.recordType.isSome then throw .malformed
  return { d with recordType := some (← readName o) }

def setPlanes (d : Draft) (o : Outline) : Except TableError Draft := do
  if d.planes.isSome then throw .malformed
  return { d with planes := some (← readPlanes o) }

def setAttributes (d : Draft) (o : Outline) : Except TableError Draft := do
  if d.attributes.isSome then throw .malformed
  return { d with attributes := some (← o.readStringList) }

def setMember (d : Draft) (key : List Piece) (o : Outline) : Except TableError Draft :=
  match Piece.string? key with
  | some "layerType" => d.setType o
  | some "irType" => d.setRecordType o
  | some "outputPlanes" => d.setPlanes o
  | some "attributes" => d.setAttributes o
  | some _ => if o.whole then .ok d else .error .malformed
  | none => .error .malformed

def setMembers : Draft → List (List Piece × Outline) → Except TableError Draft
  | d, [] => .ok d
  | d, (key, o) :: ms => do setMembers (← d.setMember key o) ms

/-- The readers of the entries, in order. -/
def inOrder : List (Draft → Outline → Except TableError Draft) :=
  [setType, setRecordType, setPlanes, setAttributes]

/-- Entries given in order, without their names. -/
def setItems : Draft → List (Draft → Outline → Except TableError Draft) → List Outline →
    Except TableError Draft
  | d, _, [] => .ok d
  | _, [], _ :: _ => .error .malformed
  | d, f :: fs, o :: os => do setItems (← f d o) fs os

def layer (d : Draft) : Except TableError CustomLayer :=
  match d.layerType with
  | some layerType =>
    .ok ⟨layerType, d.recordType.getD none, d.planes.getD none, d.attributes.getD []⟩
  | none => .error .malformed

end Draft

def read : Outline → Except TableError CustomLayer
  | .arr items closed => do
    let d ← Draft.setItems {} Draft.inOrder items
    if closed then d.layer else throw .malformed
  | .obj members closed => do
    let d ← Draft.setMembers {} members
    if closed then d.layer else throw .malformed
  | _ => .error .malformed

def readEach : List Outline → Except TableError (List CustomLayer)
  | [] => .ok []
  | o :: os => do
    let l ← read o
    return l :: (← readEach os)

end CustomLayer

/-! ### Reading a file -/

namespace CustomObjects

/-- The sections of a file read so far. -/
structure Draft where
  layers : Option (List CustomLayer) := none
  constants : Option (Entries Json) := none

namespace Draft

def readLayers (d : Draft) : Outline → Except TableError Draft
  | .arr items closed => do
    if d.layers.isSome then throw .malformed
    let ls ← CustomLayer.readEach items
    if closed then return { d with layers := some ls } else throw .malformed
  | _ => .error .malformed

/-- The constants are one level below the file, which is the first. -/
def readConstants (d : Draft) : Outline → Except TableError Draft
  | .obj members closed => do
    if d.constants.isSome then throw .malformed
    match Outline.json? (Outline.maxDepth - 1) (.obj members closed) with
    | some (.obj constants) => return { d with constants := some constants }
    | _ => throw .malformed
  | _ => .error .malformed

def readSection (d : Draft) (key : List Piece) (o : Outline) : Except TableError Draft :=
  match Piece.string? key with
  | some "layers" => d.readLayers o
  | some "constants" => d.readConstants o
  | _ => .error .malformed

def readSections : Draft → List (List Piece × Outline) → Except TableError Draft
  | d, [] => .ok d
  | d, (key, o) :: ms => do readSections (← d.readSection key o) ms

def objects (d : Draft) : CustomObjects :=
  ⟨Entries.ofList ((d.layers.getD []).map fun l => (l.layerType, l)), d.constants.getD []⟩

end Draft

/-- The custom objects of a file. -/
def ofText (text : String) : Except TableError CustomObjects :=
  match Outline.ofString text with
  | (.obj members true, true) => do return (← Draft.readSections {} members).objects
  | (.arr [] true, true) => .ok {}
  | (.arr [a] true, true) => do return (← ({} : Draft).readLayers a).objects
  | (.arr [a, b] true, true) => do
    return (← (← ({} : Draft).readLayers a).readConstants b).objects
  | _ => .error .malformed

end CustomObjects

end LayerGraph
