import LayerGraph.Word

/-!
# Binary interchange formats and the rounding of quotients

A binary interchange format is given by the widths of its fraction and exponent
fields. The words of a format without their sign bit are its *magnitudes*: read as
natural numbers they are ordered as the values they stand for, the infinity is the
word with a full exponent field and no fraction, and everything above it is a NaN.

Rounding needs no case distinction on top of that. `FloatFormat.nearest` picks the
exponent `q` of the last place, rounds the quotient to a whole multiple `m` of
`2 ^ q`, ties to even, and the magnitude is `(q - lowest) * 2 ^ fractionBits + m`: a
carry out of `m` moves into the exponent field by itself, subnormal results are the
case `q = lowest`, and an overflow is cut off at the infinity.
-/

namespace LayerGraph

/-- The field widths of a binary interchange format. -/
structure FloatFormat where
  fractionBits : Nat
  exponentBits : Nat
  deriving DecidableEq

namespace FloatFormat

/-- The 32 bit format. -/
def single : FloatFormat := ⟨23, 8⟩

/-- The 64 bit format. -/
def double : FloatFormat := ⟨52, 11⟩

variable (f : FloatFormat)

/-- Width of a whole word: sign, exponent and fraction. -/
def width : Nat := f.fractionBits + f.exponentBits + 1

/-- The step between two exponent fields, which is also the hidden leading bit. -/
def hidden : Nat := twoPow f.fractionBits

/-- Magnitude of the infinities. -/
def infinity : Nat := (twoPow f.exponentBits - 1) * f.hidden

/-- The bit that makes a NaN quiet. -/
def quiet : Nat := twoPow (f.fractionBits - 1)

/-- Exponent of the last place of the smallest positive values. -/
def lowest : Int := 2 - (twoPow (f.exponentBits - 1) : Nat) - f.fractionBits

end FloatFormat

/-! ### Rounding a quotient -/

/-- The whole number nearest to `num / den`, a half going to the even neighbour. -/
def roundEven (num den : Nat) : Nat :=
  let q := num / den
  let r := num % den
  if 2 * r < den then q else if den < 2 * r then q + 1 else q + q % 2

/-- The exponent of the power of two at or just below `num / den`, for positive
`num` and `den`. -/
def floorLog (num den : Nat) : Int :=
  let k : Int := (num.log2 : Int) - (den.log2 : Int)
  if num * twoPow (-k).toNat < den * twoPow k.toNat then k - 1 else k

/-- **Rounding to a format**: the magnitude of the value nearest to `num / den`, ties
to even, beyond the largest finite value the infinity. -/
def FloatFormat.nearest (f : FloatFormat) (num den : Nat) : Nat :=
  if num = 0 then 0 else
    let q := max (floorLog num den - f.fractionBits) f.lowest
    let m := roundEven (num * twoPow (-q).toNat) (den * twoPow q.toNat)
    min f.infinity ((q - f.lowest).toNat * f.hidden + m)

end LayerGraph
