import LayerGraph.Floating.Format

/-!
# Floating values as words

A floating value *is* its word: two values are equal as Lean terms when their bits
are, NaN payloads and signs of zero included, which is what a program that copies
weights around has to preserve. The numeric comparisons, where a NaN is unrelated to
everything and the two zeros agree, are `Floating.less` and `Floating.same`.

Arithmetic is exact on ratios of natural numbers and rounded once at the end by
`FloatFormat.nearest`.
-/

namespace LayerGraph

/-- A value of a binary interchange format, held as its word. -/
structure Floating (f : FloatFormat) where
  bits : BitVec f.width
  deriving DecidableEq

/-- Values of the 32 bit format. -/
abbrev Single := Floating .single

/-- Values of the 64 bit format. -/
abbrev Double := Floating .double

namespace Floating

variable {f : FloatFormat}

/-- Weight of the sign bit. -/
def signWeight (f : FloatFormat) : Nat := twoPow (f.fractionBits + f.exponentBits)

/-- The value with the given sign and magnitude. -/
def ofMagnitude (negative : Bool) (m : Nat) : Floating f :=
  ⟨BitVec.ofNat _ (if negative then signWeight f + m else m)⟩

/-- The value of a word given as a natural number. -/
def ofWord (w : Nat) : Floating f := ⟨BitVec.ofNat _ w⟩

/-- The word as a natural number. -/
def word (x : Floating f) : Nat := x.bits.toNat

def negative (x : Floating f) : Bool := signWeight f ≤ x.word

/-- The word without its sign bit. -/
def magnitude (x : Floating f) : Nat := x.word % signWeight f

def isNaN (x : Floating f) : Bool := f.infinity < x.magnitude

def isInfinite (x : Floating f) : Bool := x.magnitude = f.infinity

def isFinite (x : Floating f) : Bool := x.magnitude < f.infinity

def zero : Floating f := ofMagnitude false 0

instance : Inhabited (Floating f) := ⟨zero⟩

/-! ### The value of a finite word -/

/-- A finite value is `m * 2 ^ q` up to sign, with `m` below twice the hidden bit. -/
def significand (x : Floating f) : Nat × Int :=
  let field := x.magnitude / f.hidden
  let fraction := x.magnitude % f.hidden
  if field = 0 then (fraction, f.lowest)
  else (f.hidden + fraction, f.lowest + field - 1)

/-- The absolute value of a finite word as a quotient of natural numbers. -/
def ratio (x : Floating f) : Nat × Nat :=
  let (m, q) := x.significand
  (m * twoPow q.toNat, twoPow (-q).toNat)

/-- The value nearest to `num / den`, with the given sign. -/
def ofRatio (negative : Bool) (num den : Nat) : Floating f :=
  ofMagnitude negative (f.nearest num den)

/-- The value nearest to a whole number. -/
def ofInt (i : Int) : Floating f := ofRatio (i < 0) i.natAbs 1

/-- The value with the opposite sign. -/
def neg (x : Floating f) : Floating f := ofMagnitude (!x.negative) x.magnitude

/-- The rounded product of two finite values, without regard to sign. -/
def mulAbs (x y : Floating f) : Floating f :=
  ofRatio false (x.ratio.1 * y.ratio.1) (x.ratio.2 * y.ratio.2)

/-- The rounded quotient of a finite value by a finite non-zero one, without regard
to sign. -/
def divAbs (x y : Floating f) : Floating f :=
  ofRatio false (x.ratio.1 * y.ratio.2) (x.ratio.2 * y.ratio.1)

/-! ### Comparison by value -/

/-- The word as a signed number; it orders all values but the NaNs. -/
def rank (x : Floating f) : Int :=
  if x.negative then -(x.magnitude : Int) else x.magnitude

/-- Numeric `<`. A NaN is below nothing and nothing is below it. -/
def less (x y : Floating f) : Bool := !x.isNaN && !y.isNaN && decide (x.rank < y.rank)

/-- Numeric equality. The two zeros agree, a NaN differs from itself. -/
def same (x y : Floating f) : Bool := !x.isNaN && !y.isNaN && decide (x.rank = y.rank)

/-! ### Conversion -/

/-- The nearest value of another format. A NaN keeps its sign and the leading bits of
its payload and becomes quiet. -/
def convert (g : FloatFormat) (x : Floating f) : Floating g :=
  if x.isNaN then
    let payload := x.magnitude % f.hidden
    let moved := payload * twoPow (g.fractionBits - f.fractionBits) /
      twoPow (f.fractionBits - g.fractionBits)
    ofMagnitude x.negative (g.infinity + (moved ||| g.quiet))
  else if x.isInfinite then ofMagnitude x.negative g.infinity
  else ofRatio x.negative x.ratio.1 x.ratio.2

/-- The whole part, toward zero, held within a signed word of 64 bits; a NaN is 0. -/
def truncate (x : Floating f) : Int :=
  if x.isNaN then 0
  else if x.isInfinite then (if x.negative then Word.minInt else Word.maxInt)
  else
    let whole : Int := (x.ratio.1 / x.ratio.2 : Nat)
    if x.negative then max Word.minInt (-whole) else min Word.maxInt whole

/-! ### The two formats in use -/

/-- The nearest 32 bit value. -/
def toSingle (x : Double) : Single := x.convert .single

/-- The same value in 64 bits. -/
def toDouble (x : Single) : Double := x.convert .double

end Floating

end LayerGraph
