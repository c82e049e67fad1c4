import LayerGraph.Json.Token

/-!
# Outlines: the grammar of a text, up to its first error

A table is read from left to right, and the first thing wrong with it is reported, be
it a missing comma or a value that makes no sense in its place. So the grammar is
settled first, without judging any value, and an error of grammar does not hide what
stands before it: `Outline.ofTokens` gives the tree of every text, cut off where the
grammar is first broken. Arrays and objects that were not closed say so, and what
should have been a value is `Outline.broken`. A reader that walks an outline in order
then meets all errors in the order of the text.

The outline is grown by a pushdown machine, one token at a time.
-/

namespace LayerGraph

/-- The tree of a text. Numbers and strings are kept as spelled. -/
inductive Outline where
  | broken
  | null
  | bool (b : Bool)
  | number (n : NumberLiteral)
  | text (pieces : List Piece)
  | arr (items : List Outline) (closed : Bool)
  | obj (members : List (List Piece × Outline)) (closed : Bool)

namespace Outline

/-- An enclosing array or object, with what came before in reverse. -/
inductive Frame where
  | arr (before : List Outline)
  | obj (before : List (List Piece × Outline)) (key : List Piece)

/-- What the machine waits for. -/
inductive Mode where
  /-- A value must start. -/
  | item
  /-- An array was opened: a value or its end. -/
  | firstItem
  /-- An object was opened: a key or its end. -/
  | firstKey
  | key (before : List (List Piece × Outline))
  | colon (before : List (List Piece × Outline)) (key : List Piece)
  /-- A value is complete. -/
  | after (v : Outline)

/-- What stands at a place where the grammar breaks. -/
def Mode.cut : Mode → Outline
  | .item | .firstItem => .broken
  | .firstKey => .obj [] false
  | .key before => .obj before.reverse false
  | .colon before name => .obj ((name, .broken) :: before).reverse false
  | .after v => v

/-- Leaves all enclosing frames unclosed. -/
def unwind : Outline → List Frame → Outline
  | v, [] => v
  | v, .arr before :: fs => unwind (.arr (v :: before).reverse false) fs
  | v, .obj before key :: fs => unwind (.obj ((key, v) :: before).reverse false) fs

/-- The start of a value. -/
def start (fs : List Frame) : Token → Option (Mode × List Frame)
  | .null => some (.after .null, fs)
  | .bool b => some (.after (.bool b), fs)
  | .number n => some (.after (.number n), fs)
  | .text ps => some (.after (.text ps), fs)
  | .openArr => some (.firstItem, .arr [] :: fs)
  | .openObj => some (.firstKey, fs)
  | _ => none

/-- One token read inside a value; nothing if it breaks the grammar. -/
def step : Mode → List Frame → Token → Option (Mode × List Frame)
  | .firstItem, .arr [] :: fs, .closeArr => some (.after (.arr [] true), fs)
  | .item, fs, t | .firstItem, fs, t => start fs t
  | .firstKey, fs, .closeObj => some (.after (.obj [] true), fs)
  | .firstKey, fs, .text ps => some (.colon [] ps, fs)
  | .key before, fs, .text ps => some (.colon before ps, fs)
  | .colon before key, fs, .colon => some (.item, .obj before key :: fs)
  | .after v, .arr before :: fs, .comma => some (.item, .arr (v :: before) :: fs)
  | .after v, .arr before :: fs, .closeArr => some (.after (.arr (v :: before).reverse true), fs)
  | .after v, .obj before key :: fs, .comma => some (.key ((key, v) :: before), fs)
  | .after v, .obj before key :: fs, .closeObj =>
    some (.after (.obj ((key, v) :: before).reverse true), fs)
  | _, _, _ => none

/-- The tree grown from the tokens, and whether they end with it. -/
def grow : Mode → List Frame → List Token → Outline × Bool
  | .after v, [], ts => (v, ts.isEmpty)
  | m, fs, [] => (unwind m.cut fs, false)
  | m, fs, t :: ts =>
    match step m fs t with
    | some (m, fs) => grow m fs ts
    | none => (unwind m.cut fs, false)

/-- The outline of a text, and whether nothing stands after it. -/
def ofTokens (ts : List Token) : Outline × Bool := grow .item [] ts

def ofString (s : String) : Outline × Bool := ofTokens (Token.lex s.toList)

/-! ### Skipping and reading -/

mutual

/-- A skipped value has to be grammatical, and nothing more. -/
def whole : Outline → Bool
  | .broken => false
  | .null | .bool _ | .number _ | .text _ => true
  | .arr items closed => wholeItems items && closed
  | .obj members closed => wholeMembers members && closed

def wholeItems : List Outline → Bool
  | [] => true
  | o :: os => whole o && wholeItems os

def wholeMembers : List (List Piece × Outline) → Bool
  | [] => true
  | (_, o) :: ms => whole o && wholeMembers ms

end

mutual

/-- The value of an outline, with room for so many more levels of nesting. -/
def json? (room : Nat) : Outline → Option Json
  | .broken => none
  | .null => some .null
  | .bool b => some (.bool b)
  | .number n => n.value?
  | .text ps => (Piece.string? ps).map .str
  | .arr items closed =>
    if room = 0 then none
    else match jsonItems? (room - 1) items with
      | some xs => if closed then some (.arr xs) else none
      | none => none
  | .obj members closed =>
    if room = 0 then none
    else match jsonMembers? (room - 1) members with
      | some ms => if closed then some (.obj (Entries.ofList ms)) else none
      | none => none

def jsonItems? (room : Nat) : List Outline → Option (List Json)
  | [] => some []
  | o :: os =>
    match json? room o, jsonItems? room os with
    | some x, some xs => some (x :: xs)
    | _, _ => none

def jsonMembers? (room : Nat) : List (List Piece × Outline) → Option (List (String × Json))
  | [] => some []
  | (ps, o) :: ms =>
    match Piece.string? ps, json? room o, jsonMembers? room ms with
    | some k, some x, some xs => some ((k, x) :: xs)
    | _, _, _ => none

end

/-- Arrays and objects nest to this depth. -/
def maxDepth : Nat := 127

end Outline

/-- Reads a JSON text: one value, nested no deeper than `Outline.maxDepth`, and nothing
after it. -/
def Json.read? (s : String) : Option Json :=
  match Outline.ofString s with
  | (o, true) => o.json? Outline.maxDepth
  | (_, false) => none

end LayerGraph
