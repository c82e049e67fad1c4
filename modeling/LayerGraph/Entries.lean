/-!
# Entries: ordered maps from names

A list of named values in which every name stands once, in the order in which the
names first came up: attributes of a node, members of an object, tables of layers and
weights are all of this kind. `Entries.set` replaces a value where it stands and
appends a new name at the end, so an entry list built by `Entries.ofList` keeps the
first position and the last value of a repeated name.
-/

namespace LayerGraph

/-- Named values in order. -/
abbrev Entries (α : Type) := List (String × α)

namespace Entries

variable {α : Type}

/-- The value of a name. -/
def value? : Entries α → String → Option α
  | [], _ => none
  | (k, v) :: es, key => if k = key then some v else value? es key

/-- Gives `key` the value `v`: in place if it is there, else at the end. -/
def set : Entries α → String → α → Entries α
  | [], key, v => [(key, v)]
  | (k, w) :: es, key, v => if k = key then (k, v) :: es else (k, w) :: set es key v

/-- Gives `key` the value `v`, if there is one. -/
def set? (es : Entries α) (key : String) : Option α → Entries α
  | some v => es.set key v
  | none => es

/-- Sets all pairs of a list, from left to right. -/
def setAll (es : Entries α) (pairs : List (String × α)) : Entries α :=
  pairs.foldl (fun es p => es.set p.1 p.2) es

/-- The entries of a list of pairs. -/
def ofList (pairs : List (String × α)) : Entries α := setAll [] pairs

def contains (es : Entries α) (key : String) : Bool := (es.value? key).isSome

/-- The entries without those of `key`. -/
def erase (es : Entries α) (key : String) : Entries α := es.filter (fun p => p.1 ≠ key)

end Entries

end LayerGraph
