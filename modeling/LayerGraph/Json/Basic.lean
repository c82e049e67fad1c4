import LayerGraph.Entries
import LayerGraph.Floating.Basic

/-!
# JSON values

Numbers come in two kinds, as a reader tells them apart by their spelling: whole
numbers within a word of 64 bits, signed or unsigned, and floating values. Objects
keep the order of their members.
-/

namespace LayerGraph

inductive Json where
  | null
  | bool (b : Bool)
  | int (n : Int)
  | float (x : Double)
  | str (s : String)
  | arr (items : List Json)
  | obj (members : List (String × Json))
  deriving Inhabited

namespace Json

/-- A whole number within a signed word of 64 bits. -/
def int64? : Json → Option Int
  | .int n => if Word.minInt ≤ n ∧ n ≤ Word.maxInt then some n else none
  | _ => none

/-- A number as a 64 bit floating value. -/
def double? : Json → Option Double
  | .int n => some (Floating.ofInt n)
  | .float x => some x
  | _ => none

def str? : Json → Option String
  | .str s => some s
  | _ => none

def arr? : Json → Option (List Json)
  | .arr items => some items
  | _ => none

def obj? : Json → Option (Entries Json)
  | .obj members => some members
  | _ => none

/-- The member of an object; nothing for any other value. -/
def member? (j : Json) (key : String) : Option Json :=
  match j with
  | .obj members => Entries.value? members key
  | _ => none

/-- A floating value as a number, and `null` where JSON has none. -/
def ofDouble (x : Double) : Json := if x.isFinite then .float x else .null

/-- A list of strings. -/
def strs (xs : List String) : Json := .arr (xs.map .str)

/-- A list of whole numbers. -/
def ints (xs : List Int) : Json := .arr (xs.map .int)

end Json

end LayerGraph
