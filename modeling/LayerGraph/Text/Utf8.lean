import LayerGraph.Bytes

/-!
# UTF-8

Decoding reads one byte at a time. Inside a character it knows how many bytes are
missing and within which bounds the next one has to lie; the bounds rule out overlong
forms, surrogates and values beyond the last character as soon as they show. What is cut
short or ruled out is an *invalid part*, as long as possible, and the byte that ends it
is read anew.

Text that must be valid is refused if it has an invalid part (`Utf8.decode?`); where any
bytes are accepted, each invalid part becomes one replacement character
(`Utf8.decodeLossy`).
-/

namespace LayerGraph

namespace Utf8

inductive State where
  | between
  /-- `missing` bytes to come, the next one within bounds, after bits of value `bits`. -/
  | inside (missing low high bits : Nat)

/-- A byte read between characters. -/
def begin (b : Nat) : List (Option Char) × State :=
  if b < 0x80 then ([some (Char.ofNat b)], .between)
  else if b < 0xc2 then ([none], .between)
  else if b < 0xe0 then ([], .inside 1 0x80 0xbf (b - 0xc0))
  else if b = 0xe0 then ([], .inside 2 0xa0 0xbf 0)
  else if b = 0xed then ([], .inside 2 0x80 0x9f (b - 0xe0))
  else if b < 0xf0 then ([], .inside 2 0x80 0xbf (b - 0xe0))
  else if b = 0xf0 then ([], .inside 3 0x90 0xbf 0)
  else if b < 0xf4 then ([], .inside 3 0x80 0xbf (b - 0xf0))
  else if b = 0xf4 then ([], .inside 3 0x80 0x8f 4)
  else ([none], .between)

def step : State → Nat → List (Option Char) × State
  | .between, b => begin b
  | .inside missing low high bits, b =>
    if low ≤ b ∧ b ≤ high then
      let bits := bits * 64 + (b - 0x80)
      if missing = 1 then ([some (Char.ofNat bits)], .between)
      else ([], .inside (missing - 1) 0x80 0xbf bits)
    else let (out, s) := begin b; (none :: out, s)

/-- The characters of some bytes, with nothing for an invalid part. -/
def scan : State → Bytes → List (Option Char)
  | .between, [] => []
  | .inside _ _ _ _, [] => [none]
  | s, b :: bs => let (out, s) := step s b.toNat; out ++ scan s bs

def allChars : List (Option Char) → Option (List Char)
  | [] => some []
  | some c :: cs => (allChars cs).map (c :: ·)
  | none :: _ => none

/-- The text of valid bytes. -/
def decode? (bs : Bytes) : Option String := (allChars (scan .between bs)).map String.ofList

/-- The text of any bytes. -/
def decodeLossy (bs : Bytes) : String :=
  String.ofList ((scan .between bs).map fun c => c.getD '\ufffd')

def encode (s : String) : Bytes := s.toUTF8.data.toList

end Utf8

end LayerGraph
