import LayerGraph.Json.Basic
import LayerGraph.Floating.Scaled
import LayerGraph.Floating.Shortest

/-!
# Numbers in JSON texts

Reading starts from the spelling. A literal without fraction and exponent is a whole
number if it fits a word of 64 bits; everything else is floating, `-0` included,
because only a floating zero has a sign. The digits of a floating literal are gathered
into a word of 64 bits as long as they fit: whole digits beyond it count into the
exponent, digits of the fraction beyond it are dropped.

Writing takes the shortest digits that read back and places them by a `NumberStyle`.
-/

namespace LayerGraph

/-- The spelling of a number: sign, digits, digits of the fraction if there is a point,
sign and digits of the exponent if there is one. -/
structure NumberLiteral where
  minus : Bool
  whole : List Nat
  fraction : Option (List Nat)
  exponent : Option (Bool × List Nat)
  deriving DecidableEq

namespace NumberLiteral

def digit? (c : Char) : Option Nat :=
  if '0' ≤ c ∧ c ≤ '9' then some (c.toNat - '0'.toNat) else none

/-- The longest run of digits at the front, and the rest. -/
def digits : List Char → List Nat × List Char
  | [] => ([], [])
  | c :: cs =>
    match digit? c with
    | some d => let (ds, rest) := digits cs; (d :: ds, rest)
    | none => ([], c :: cs)

/-- The exponent part; a bare sign is none. -/
def ofExponent (cs : List Char) : Option (Bool × List Nat) :=
  let (minus, cs) := match cs with
    | '-' :: r => (true, r)
    | '+' :: r => (false, r)
    | r => (false, r)
  match digits cs with
  | ([], _) => none
  | (ds, []) => some (minus, ds)
  | _ => none

/-- A literal from all of its characters: no leading zeros, digits on both sides of the
point, digits in the exponent. -/
def ofChars (cs : List Char) : Option NumberLiteral :=
  let (minus, cs) := match cs with
    | '-' :: r => (true, r)
    | r => (false, r)
  match digits cs with
  | ([], _) => none
  | (0 :: _ :: _, _) => none
  | (whole, rest) =>
    match rest with
    | [] => some ⟨minus, whole, none, none⟩
    | '.' :: rest =>
      match digits rest with
      | ([], _) => none
      | (fraction, []) => some ⟨minus, whole, some fraction, none⟩
      | (fraction, e :: rest) =>
        if e = 'e' ∨ e = 'E' then
          (ofExponent rest).map fun x => ⟨minus, whole, some fraction, some x⟩
        else none
    | e :: rest =>
      if e = 'e' ∨ e = 'E' then
        (ofExponent rest).map fun x => ⟨minus, whole, none, some x⟩
      else none

/-- Appends digits to `n` while the result fits a word of 64 bits; the digits left over
come second. -/
def gather : Nat → List Nat → Nat × List Nat
  | n, [] => (n, [])
  | n, d :: ds => if n * 10 + d < twoPow 64 then gather (n * 10 + d) ds else (n, d :: ds)

def natOf (ds : List Nat) : Nat := ds.foldl (fun n d => n * 10 + d) 0

/-- The number spelled by a literal; nothing if it is too large for a floating value. -/
def value? (l : NumberLiteral) : Option Json :=
  let (n, rest) := gather 0 l.whole
  match l.fraction, l.exponent, rest with
  | none, none, [] =>
    if !l.minus then some (.int n)
    else if n = 0 ∨ twoPow 63 < n then some (.float (Floating.ofInt n).neg)
    else some (.int (-n))
  | _, _, _ =>
    let fraction := l.fraction.getD []
    let (m, dropped) := gather n fraction
    let places : Int := (rest.length : Int) - ((fraction.length - dropped.length : Nat) : Int)
    let shift : Int := match l.exponent with
      | none => 0
      | some (minus, ds) => if minus then -(natOf ds : Int) else natOf ds
    ((Floating.ofInt m : Double).scaled (places + shift)).map fun x =>
      .float (if l.minus then x.neg else x)

end NumberLiteral

/-! ### Writing -/

/-- How floating values are written: positional if the exponent of the leading digit is
within bounds, else scientific. -/
structure NumberStyle where
  lowest : Int
  highest : Int
  tie : Tie

namespace NumberStyle

/-- 64 bit values are positional from `1e-5` up to, and not including, `1e16`. -/
def double : NumberStyle := ⟨-5, 15, .even⟩

/-- 32 bit values are positional from `1e-6` up to, and not including, `1e13`. -/
def single : NumberStyle := ⟨-6, 12, .even⟩

def zeros (n : Nat) : List Char := List.replicate n '0'

/-- The characters of the digits `ds` times `10 ^ exponent`. -/
def place (style : NumberStyle) (ds : List Char) (exponent : Int) : List Char :=
  let leading := exponent + ds.length - 1
  if leading < style.lowest ∨ style.highest < leading then
    let mantissa := match ds with
      | [] => []
      | [d] => [d]
      | d :: r => d :: '.' :: r
    let sign := if leading < 0 then '-' else '+'
    mantissa ++ 'e' :: sign :: (toString leading.natAbs).toList
  else if 0 ≤ exponent then ds ++ zeros exponent.toNat ++ ['.', '0']
  else if 0 ≤ leading then
    ds.take (leading.toNat + 1) ++ '.' :: ds.drop (leading.toNat + 1)
  else '0' :: '.' :: (zeros (-leading - 1).toNat ++ ds)

/-- The text of a finite value. -/
def write {f : FloatFormat} (style : NumberStyle) (x : Floating f) : List Char :=
  let d := x.shortest style.tie
  let body :=
    if d.coefficient = 0 then ['0', '.', '0']
    else style.place (toString d.coefficient).toList d.exponent
  if x.negative then '-' :: body else body

end NumberStyle

/-- The number that has the shortest decimal of a 32 bit value: the value people wrote
down, and not the widened binary one. -/
def Json.ofSingle (x : Single) : Json :=
  if x.isFinite then .float (Floating.ofDecimal x.negative (x.shortest .up)) else .null

end LayerGraph
