import LayerGraph.Floating.Basic

/-!
# Decimals read by scaling

A decimal literal is read in two roundings: its leading digits, as far as they fit a
word of 64 bits, are rounded to a 64 bit value, and that value is multiplied or
divided by a power of ten that is itself rounded. For up to fifteen digits and small
exponents both factors are exact and the result is the nearest value; beyond that it
may be a few units of the last place off, and readers that want the same bits have to
take the same steps.
-/

namespace LayerGraph

namespace Floating

/-- The 64 bit value nearest to a power of ten. -/
def powerOfTen (k : Nat) : Double := ofRatio false (tenPow k) 1

/-- `x * 10 ^ e` for a non-negative finite `x`; nothing if the product overflows. A very
small exponent is taken in steps of `10 ^ 308`. -/
def scaled (x : Double) (e : Int) : Option Double :=
  if e.natAbs ≤ 308 then
    if 0 ≤ e then
      let y := x.mulAbs (powerOfTen e.natAbs)
      if y.isInfinite then none else some y
    else some (x.divAbs (powerOfTen e.natAbs))
  else if x.magnitude = 0 then some x
  else if 0 ≤ e then none
  else scaled (x.divAbs (powerOfTen 308)) (e + 308)
termination_by e.natAbs

end Floating

end LayerGraph
