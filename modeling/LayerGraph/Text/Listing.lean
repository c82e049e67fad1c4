/-!
# Lists inside messages

A list of numbers is quoted in brackets, with a comma and a blank between the items.
-/

namespace LayerGraph

/-- The items between brackets. -/
def listing (items : List String) : String := "[" ++ ", ".intercalate items ++ "]"

/-- A shape, such as `[3, 3, 1, 8]`. -/
def shapeText (dims : List Nat) : String := listing (dims.map toString)

end LayerGraph
