import LayerGraph.Json.Number

/-!
# Tokens of a JSON text

The lexer is a machine that reads one character at a time. Strings are kept as they
are spelled, an escaped code unit apart from the characters, because whether a lone
surrogate is an error depends on whether the string is read or skipped. A maximal run
of other characters is a *word*: a literal name, a number, or invalid. After the
first invalid token nothing follows.
-/

namespace LayerGraph

/-- A piece of a string as spelled: a character, or a code unit of 16 bits written with
an escape. -/
inductive Piece where
  | char (c : Char)
  | codeUnit (u : Nat)
  deriving DecidableEq

inductive Token where
  | openArr
  | closeArr
  | openObj
  | closeObj
  | comma
  | colon
  | null
  | bool (b : Bool)
  | number (n : NumberLiteral)
  | text (pieces : List Piece)
  | invalid
  deriving DecidableEq

namespace Token

/-- The token of a maximal run of word characters. -/
def ofWord (cs : List Char) : Token :=
  if cs = "null".toList then .null
  else if cs = "true".toList then .bool true
  else if cs = "false".toList then .bool false
  else match NumberLiteral.ofChars cs with
    | some n => .number n
    | none => .invalid

/-- The token of a character that stands for itself. -/
def punctuation? : Char → Option Token
  | '[' => some .openArr
  | ']' => some .closeArr
  | '\x7b' => some .openObj
  | '\x7d' => some .closeObj
  | ',' => some .comma
  | ':' => some .colon
  | _ => none

def isBlank (c : Char) : Bool := c = ' ' || c = '\t' || c = '\n' || c = '\r'

/-- The character that a one-letter escape stands for. -/
def escaped? : Char → Option Char
  | '"' => some '"'
  | '\\' => some '\\'
  | '/' => some '/'
  | 'b' => some '\x08'
  | 'f' => some '\x0c'
  | 'n' => some '\n'
  | 'r' => some '\r'
  | 't' => some '\t'
  | _ => none

def hexDigit? (c : Char) : Option Nat :=
  if '0' ≤ c ∧ c ≤ '9' then some (c.toNat - '0'.toNat)
  else if 'a' ≤ c ∧ c ≤ 'f' then some (c.toNat - 'a'.toNat + 10)
  else if 'A' ≤ c ∧ c ≤ 'F' then some (c.toNat - 'A'.toNat + 10)
  else none

/-! ### The machine -/

/-- What the lexer is inside of. Words and strings are held in reverse. -/
inductive Scan where
  | between
  | word (seen : List Char)
  | text (seen : List Piece)
  | escape (seen : List Piece)
  | codeUnit (seen : List Piece) (digits value : Nat)
  | halted

/-- One character read outside of words and strings. -/
def outside (c : Char) : List Token × Scan :=
  if isBlank c then ([], .between)
  else if c = '"' then ([], .text [])
  else match punctuation? c with
    | some t => ([t], .between)
    | none => ([], .word [c])

/-- One character read. -/
def step : Scan → Char → List Token × Scan
  | .between, c => outside c
  | .word seen, c =>
    if isBlank c || c = '"' || (punctuation? c).isSome then
      match ofWord seen.reverse with
      | .invalid => ([.invalid], .halted)
      | t => let (ts, s) := outside c; (t :: ts, s)
    else ([], .word (c :: seen))
  | .text seen, c =>
    if c = '"' then ([.text seen.reverse], .between)
    else if c = '\\' then ([], .escape seen)
    else if c.toNat < 0x20 then ([.invalid], .halted)
    else ([], .text (.char c :: seen))
  | .escape seen, c =>
    if c = 'u' then ([], .codeUnit seen 0 0)
    else match escaped? c with
      | some e => ([], .text (.char e :: seen))
      | none => ([.invalid], .halted)
  | .codeUnit seen n v, c =>
    match hexDigit? c with
    | none => ([.invalid], .halted)
    | some d =>
      if n = 3 then ([], .text (.codeUnit (v * 16 + d) :: seen))
      else ([], .codeUnit seen (n + 1) (v * 16 + d))
  | .halted, _ => ([], .halted)

/-- The end of the text. -/
def finish : Scan → List Token
  | .between | .halted => []
  | .word seen => [ofWord seen.reverse]
  | .text _ | .escape _ | .codeUnit _ _ _ => [.invalid]

def scan : Scan → List Char → List Token
  | s, [] => finish s
  | s, c :: cs => let (ts, s) := step s c; ts ++ scan s cs

/-- The tokens of a text. -/
def lex (cs : List Char) : List Token := scan .between cs

end Token

namespace Piece

/-- The characters of a string; code units come in pairs outside the basic plane, and a
lone surrogate is no character. -/
def chars? : List Piece → Option (List Char)
  | [] => some []
  | .char c :: r => (chars? r).map (c :: ·)
  | .codeUnit u :: r =>
    if u < 0xd800 ∨ 0xe000 ≤ u then (chars? r).map (Char.ofNat u :: ·)
    else if u < 0xdc00 then
      match r with
      | .codeUnit v :: r =>
        if 0xdc00 ≤ v ∧ v < 0xe000 then
          (chars? r).map (Char.ofNat (0x10000 + (u - 0xd800) * 0x400 + (v - 0xdc00)) :: ·)
        else none
      | _ => none
    else none

def string? (ps : List Piece) : Option String := (chars? ps).map String.ofList

end Piece

end LayerGraph
