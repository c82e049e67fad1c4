/-!
# White space and pieces of text

The characters with the property White_Space, and two operations on lists of
characters that the tables of rules need: taking blanks off both ends and cutting at a
separator.
-/

namespace LayerGraph

/-- Whether a character has the property White_Space. -/
def isWhiteSpace (c : Char) : Bool :=
  let n := c.toNat
  (0x09 ≤ n && n ≤ 0x0d) || n = 0x20 || n = 0x85 || n = 0xa0 || n = 0x1680 ||
    (0x2000 ≤ n && n ≤ 0x200a) || n = 0x2028 || n = 0x2029 || n = 0x202f || n = 0x205f ||
    n = 0x3000

/-- Takes white space off both ends. -/
def trimBlanks (cs : List Char) : List Char :=
  ((cs.dropWhile isWhiteSpace).reverse.dropWhile isWhiteSpace).reverse

/-- The pieces between the separators; there is always one piece more than there are
separators. -/
def pieces (separator : Char) : List Char → List (List Char)
  | [] => [[]]
  | c :: cs =>
    if c = separator then [] :: pieces separator cs
    else match pieces separator cs with
      | [] => [[c]]
      | p :: ps => (c :: p) :: ps

end LayerGraph
