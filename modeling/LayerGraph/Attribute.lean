import LayerGraph.Json.Basic

/-!
# Attributes

A node carries named attributes. A value is kept in the simplest form that holds it,
so that a list of numbers is a list of numbers wherever it came from; whatever has no
such form is kept as JSON. The readers at the end give the value of a name in the
form a caller asks for, and convert between the forms where models disagree on them.
-/

namespace LayerGraph

inductive AttrValue where
  | int (n : Int)
  | float (x : Single)
  | bool (b : Bool)
  | str (s : String)
  | ints (ns : List Int)
  | floats (xs : List Single)
  | strs (ss : List String)
  | json (j : Json)
  deriving Inhabited

namespace AttrValue

/-- The 32 bit value of a number, by way of 64 bits. -/
def single (j : Json) : Single := (j.double?.getD .zero).toSingle

/-- The form of a JSON array: whole numbers, numbers, strings, or none of these. -/
def ofItems (items : List Json) : AttrValue :=
  if items.isEmpty then .json (.arr items)
  else if items.all (fun j => j.int64?.isSome) then .ints (items.filterMap Json.int64?)
  else if items.all (fun j => j.double?.isSome) then .floats (items.map single)
  else if items.all (fun j => j.str?.isSome) then .strs (items.filterMap Json.str?)
  else .json (.arr items)

def ofJson : Json → AttrValue
  | .bool b => .bool b
  | .int n =>
    match (Json.int n).int64? with
    | some i => .int i
    | none => .float (single (.int n))
  | .float x => .float x.toSingle
  | .str s => .str s
  | .arr items => ofItems items
  | j => .json j

/-- The value as JSON; 32 bit values are widened. -/
def toJson : AttrValue → Json
  | .int n => .int n
  | .float x => Json.ofDouble x.toDouble
  | .bool b => .bool b
  | .str s => .str s
  | .ints ns => Json.ints ns
  | .floats xs => .arr (xs.map fun x => Json.ofDouble x.toDouble)
  | .strs ss => Json.strs ss
  | .json j => j

end AttrValue

/-- The attributes of a node, in order. -/
abbrev Attributes := Entries AttrValue

namespace Attributes

def int? (attrs : Attributes) (key : String) : Option Int :=
  match Entries.value? attrs key with
  | some (.int n) => some n
  | some (.float x) => some x.truncate
  | some (.bool b) => some (if b then 1 else 0)
  | _ => none

def float? (attrs : Attributes) (key : String) : Option Single :=
  match Entries.value? attrs key with
  | some (.float x) => some x
  | some (.int n) => some (Floating.ofInt n)
  | _ => none

def bool? (attrs : Attributes) (key : String) : Option Bool :=
  match Entries.value? attrs key with
  | some (.bool b) => some b
  | some (.int n) => some (n != 0)
  | _ => none

def str? (attrs : Attributes) (key : String) : Option String :=
  match Entries.value? attrs key with
  | some (.str s) => some s
  | _ => none

/-- A list of whole numbers. A single one is a list of one; in a raw array, whatever is
not a whole number is an unknown dimension. -/
def ints? (attrs : Attributes) (key : String) : Option (List Int) :=
  match Entries.value? attrs key with
  | some (.ints ns) => some ns
  | some (.int n) => some [n]
  | some (.floats xs) => some (xs.map Floating.truncate)
  | some (.json (.arr items)) => some (items.map fun j => j.int64?.getD (-1))
  | _ => none

def strs? (attrs : Attributes) (key : String) : Option (List String) :=
  match Entries.value? attrs key with
  | some (.strs ss) => some ss
  | _ => none

/-- The first of a list of whole numbers. -/
def firstInt? (attrs : Attributes) (key : String) : Option Int :=
  (attrs.ints? key).bind List.head?

end Attributes

end LayerGraph
