import LayerGraph.Floating.Basic

/-!
# The shortest decimal that reads back

The reals that round to a finite value `v = m * 2 ^ q` form an interval around it,
ends included exactly when `m` is even. Among the decimals `n * 10 ^ p` of that
interval the shortest ones have the largest `p`, and on the grid of a given `p` only
the two neighbours of `v` have to be tried: if any grid point lies in the interval,
one of these does. `Floating.shortest` walks the grids from coarse to fine and takes
the first with a hit, of two hits the nearer; an exact tie is left to the caller,
since writers differ there.
-/

namespace LayerGraph

/-- The number `coefficient * 10 ^ exponent`. -/
structure Decimal where
  coefficient : Nat
  exponent : Int
  deriving DecidableEq

/-- Where a value exactly between two shortest decimals goes. -/
inductive Tie where
  | up
  | even
  deriving DecidableEq

namespace Floating

variable {f : FloatFormat}

/-- Four times the distance from `v` to the lower end of its interval, in units of the
last place: values on a power of two have nearer neighbours below. -/
def gapBelow (x : Floating f) : Nat :=
  if x.magnitude % f.hidden = 0 && f.hidden < x.magnitude then 1 else 2

/-- The candidate on the grid of `10 ^ p`, if one of the neighbours of `x` on it rounds
to `x`. All comparisons are between natural numbers, after multiplication with
`den`. -/
def onGrid (tie : Tie) (x : Floating f) (p : Int) : Option Nat :=
  let (m, q) := x.significand
  let scale := twoPow (q - 2).toNat * tenPow (-p).toNat
  let den := twoPow (2 - q).toNat * tenPow p.toNat
  let low := (4 * m - x.gapBelow) * scale
  let value := 4 * m * scale
  let high := (4 * m + 2) * scale
  let inside (n : Nat) : Bool :=
    if m % 2 = 0 then low ≤ n * den && n * den ≤ high else low < n * den && n * den < high
  let below := value / den
  let above := below + 1
  match below != 0 && inside below, inside above with
  | true, true =>
    if 2 * value < (below + above) * den then some below
    else if (below + above) * den < 2 * value then some above
    else match tie with
      | .up => some above
      | .even => some (if below % 2 = 0 then below else above)
  | true, false => some below
  | false, true => some above
  | false, false => none

/-- A power of ten above the absolute value of `x`; the factor is just above the
logarithm of two. -/
def tenAbove (x : Floating f) : Int :=
  let (m, q) := x.significand
  Int.fdiv ((m.log2 + 1 + q) * 30103) 100000 + 1

/-- **The shortest decimal** of the absolute value of a finite `x`. Twenty grids
suffice for seventeen digits. -/
def shortest (tie : Tie) (x : Floating f) : Decimal :=
  if x.magnitude = 0 then ⟨0, 0⟩ else
    ((List.range 21).findSome? fun (k : Nat) =>
      let p := x.tenAbove - k
      (x.onGrid tie p).map (Decimal.mk · p)).getD ⟨0, 0⟩

/-- The value nearest to a decimal. -/
def ofDecimal (negative : Bool) (d : Decimal) : Floating f :=
  ofRatio negative (d.coefficient * tenPow d.exponent.toNat) (tenPow (-d.exponent).toNat)

end Floating

end LayerGraph
