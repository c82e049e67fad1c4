import LayerGraph.Json.Number

/-!
# Writing JSON

Two spellings of a value: compact, without blanks, and indented by four spaces a
level, where empty arrays and objects stay on one line. Both are lists of characters,
so that what a reader does with them can be said without taking strings apart.
-/

namespace LayerGraph

namespace Json

def hexChar (d : Nat) : Char :=
  if d < 10 then Char.ofNat ('0'.toNat + d) else Char.ofNat ('a'.toNat + d - 10)

/-- A character inside a string: quotes, backslashes and control characters are
escaped, everything else stands for itself. -/
def escape (c : Char) : List Char :=
  if c = '"' then ['\\', '"']
  else if c = '\\' then ['\\', '\\']
  else if c = '\x08' then ['\\', 'b']
  else if c = '\x0c' then ['\\', 'f']
  else if c = '\n' then ['\\', 'n']
  else if c = '\r' then ['\\', 'r']
  else if c = '\t' then ['\\', 't']
  else if c.toNat < 0x20 then
    ['\\', 'u', '0', '0', hexChar (c.toNat / 16), hexChar (c.toNat % 16)]
  else [c]

def quoted (s : String) : List Char := '"' :: (s.toList.flatMap escape ++ ['"'])

/-- A floating value, and `null` where JSON has none. -/
def number {f : FloatFormat} (style : NumberStyle) (x : Floating f) : List Char :=
  if x.isFinite then style.write x else "null".toList

/-- Values that are not made of others. -/
def scalar : Json → List Char
  | .null => "null".toList
  | .bool b => (if b then "true" else "false").toList
  | .int n => (toString n).toList
  | .float x => number .double x
  | .str s => quoted s
  | .arr _ | .obj _ => []

/-! ### Compact -/

mutual

def compactChars : Json → List Char
  | .arr [] => ['[', ']']
  | .arr (x :: xs) => '[' :: (compactChars x ++ compactItems xs)
  | .obj [] => ['\x7b', '\x7d']
  | .obj ((k, x) :: ms) => '\x7b' :: (quoted k ++ ':' :: (compactChars x ++ compactMembers ms))
  | j => scalar j

/-- The items after the first, and the end of the array. -/
def compactItems : List Json → List Char
  | [] => [']']
  | x :: xs => ',' :: (compactChars x ++ compactItems xs)

def compactMembers : List (String × Json) → List Char
  | [] => ['\x7d']
  | (k, x) :: ms => ',' :: (quoted k ++ ':' :: (compactChars x ++ compactMembers ms))

end

def compact (j : Json) : String := String.ofList j.compactChars

/-! ### Indented -/

/-- A new line at the given level. -/
def newLine (level : Nat) : List Char := '\n' :: List.replicate (4 * level) ' '

/-- The parts of a non-empty array or object, one a line. -/
def block (opening closing : Char) (level : Nat) : List (List Char) → List Char
  | [] => [opening, closing]
  | p :: ps =>
    opening :: (newLine (level + 1) ++ p ++
      ps.flatMap (fun p => ',' :: (newLine (level + 1) ++ p)) ++ newLine level ++ [closing])

/-- A member of an indented object. -/
def memberLine (key : String) (value : List Char) : List Char :=
  quoted key ++ ':' :: ' ' :: value

mutual

def indentedChars (level : Nat) : Json → List Char
  | .arr items => block '[' ']' level (indentedItems (level + 1) items)
  | .obj members => block '\x7b' '\x7d' level (indentedMembers (level + 1) members)
  | j => scalar j

def indentedItems (level : Nat) : List Json → List (List Char)
  | [] => []
  | x :: xs => indentedChars level x :: indentedItems level xs

def indentedMembers (level : Nat) : List (String × Json) → List (List Char)
  | [] => []
  | (k, x) :: ms => memberLine k (indentedChars level x) :: indentedMembers level ms

end

end Json

end LayerGraph
