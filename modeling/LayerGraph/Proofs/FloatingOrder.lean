import LayerGraph.Reclassify
import Mathlib.Algebra.Order.Field.Rat
import Mathlib.Order.Monotone.Odd
import Mathlib.Tactic.Ring
import Mathlib.Tactic.NormNum

/-!
# The order of floating values

Comparing two floating values compares their words as signed numbers, and this is the order of the
numbers that they stand for (`LayerGraph.Floating.less_iff`, `LayerGraph.Floating.same_iff`). The
reason is that the value is a strictly increasing function of the magnitude, across the steps of
the exponent field as well as between them (`LayerGraph.FloatFormat.strictMono_units`): the largest
fraction of one field is one unit of that field short of the next power of two, where the next
field begins.

It is enough to say this of whole numbers. Every finite value is a multiple of the smallest positive
one, and `LayerGraph.FloatFormat.units` counts how often that goes into a magnitude.
-/

namespace LayerGraph

namespace FloatFormat

variable {f : FloatFormat}

/-- A magnitude as a multiple of the smallest positive value. -/
def units (f : FloatFormat) (m : Nat) : Nat :=
  if m / f.hidden = 0 then m % f.hidden
  else (f.hidden + m % f.hidden) * 2 ^ (m / f.hidden - 1)

theorem hidden_pos (f : FloatFormat) : 0 < f.hidden := Nat.two_pow_pos f.fractionBits

@[simp] theorem units_zero (f : FloatFormat) : f.units 0 = 0 := by
  simp [units, Nat.zero_div]

/-- The multiple, by field and fraction. -/
theorem units_of_lt {e r : Nat} (hr : r < f.hidden) :
    f.units (e * f.hidden + r) = if e = 0 then r else (f.hidden + r) * 2 ^ (e - 1) := by
  have hdiv : (e * f.hidden + r) / f.hidden = e := by
    rw [Nat.mul_comm, Nat.mul_add_div f.hidden_pos, Nat.div_eq_of_lt hr, Nat.add_zero]
  have hmod : (e * f.hidden + r) % f.hidden = r := by
    rw [Nat.mul_comm, Nat.mul_add_mod, Nat.mod_eq_of_lt hr]
  rw [units, hdiv, hmod]

/-- One more is more, within a field and into the next one. -/
theorem units_lt_succ (f : FloatFormat) (m : Nat) : f.units m < f.units (m + 1) := by
  have hpos := f.hidden_pos
  obtain ⟨e, r, hr, rfl⟩ : ∃ e r, r < f.hidden ∧ m = e * f.hidden + r :=
    ⟨m / f.hidden, m % f.hidden, Nat.mod_lt m hpos, (Nat.div_add_mod' m f.hidden).symm⟩
  rw [units_of_lt hr]
  by_cases hstep : r + 1 < f.hidden
  · -- within a field the fraction grows
    rw [Nat.add_assoc, units_of_lt hstep]
    split
    · exact Nat.lt_succ_self r
    · exact Nat.mul_lt_mul_of_pos_right (by omega) (Nat.two_pow_pos _)
  · -- the next field begins with the fraction zero
    have hnext : e * f.hidden + r + 1 = (e + 1) * f.hidden + 0 := by
      rw [Nat.succ_mul]
      omega
    rw [hnext, units_of_lt hpos, if_neg (Nat.succ_ne_zero e), Nat.add_zero, Nat.add_sub_cancel]
    cases e with
    | zero => rwa [if_pos rfl, Nat.pow_zero, Nat.mul_one]
    | succ k =>
      rw [if_neg (Nat.succ_ne_zero k), Nat.add_sub_cancel, Nat.pow_succ, Nat.mul_comm (2 ^ k),
        ← Nat.mul_assoc]
      exact Nat.mul_lt_mul_of_pos_right (by omega) (Nat.two_pow_pos _)

/-- **The value grows with the magnitude.** -/
theorem strictMono_units (f : FloatFormat) : StrictMono f.units :=
  strictMono_nat_of_lt_succ f.units_lt_succ

/-- A signed magnitude as a multiple of the smallest positive value. -/
def signedUnits (f : FloatFormat) (r : Int) : Int := r.sign * f.units r.natAbs

theorem signedUnits_neg (r : Int) : f.signedUnits (-r) = -f.signedUnits r := by
  rw [signedUnits, signedUnits, Int.sign_neg, Int.natAbs_neg, Int.neg_mul]

theorem signedUnits_natCast (n : Nat) : f.signedUnits n = f.units n := by
  by_cases hn : n = 0
  · simp [signedUnits, hn]
  · simp [signedUnits, Int.sign_natCast_of_ne_zero hn]

/-- The value grows below zero as well. -/
theorem signedUnits_lt_iff {r s : Int} : f.signedUnits r < f.signedUnits s ↔ r < s := by
  have hmono : StrictMono f.signedUnits := by
    refine strictMono_of_odd_strictMonoOn_nonneg signedUnits_neg fun r hr s hs hrs => ?_
    -- on non-negative numbers the sign does not matter
    lift r to Nat using hr
    lift s to Nat using hs
    rw [signedUnits_natCast, signedUnits_natCast]
    exact_mod_cast f.strictMono_units (by exact_mod_cast hrs)
  exact hmono.lt_iff_lt

theorem signedUnits_inj {r s : Int} : f.signedUnits r = f.signedUnits s ↔ r = s := by
  refine ⟨fun h => ?_, fun h => h ▸ rfl⟩
  rcases Int.lt_trichotomy r s with hlt | heq | hlt
  · exact absurd h (Int.ne_of_lt (signedUnits_lt_iff.mpr hlt))
  · exact heq
  · exact absurd h.symm (Int.ne_of_lt (signedUnits_lt_iff.mpr hlt))

end FloatFormat

namespace Floating

variable {f : FloatFormat} {x y : Floating f}

/-- **The number that a finite word stands for.** -/
def toRat (x : Floating f) : ℚ :=
  (if x.negative then -1 else 1) * ((x.ratio.1 : ℚ) / (x.ratio.2 : ℚ))

theorem twoPow_div (q : Int) : (twoPow q.toNat : ℚ) / (twoPow (-q).toNat : ℚ) = 2 ^ q := by
  obtain ⟨n, rfl | rfl⟩ := Int.eq_nat_or_neg q
  · simp [twoPow]
  · simp [twoPow]

theorem ratio_eq (x : Floating f) :
    (x.ratio.1 : ℚ) / (x.ratio.2 : ℚ) = f.units x.magnitude * 2 ^ f.lowest := by
  have hq : ∀ (m : Nat) (q : Int),
      ((m * twoPow q.toNat : Nat) : ℚ) / (twoPow (-q).toNat : ℚ) = m * 2 ^ q := by
    intro m q
    rw [Nat.cast_mul, mul_div_assoc, twoPow_div]
  rw [ratio, significand, FloatFormat.units]
  cases hfield : x.magnitude / f.hidden with
  | zero => simp only [if_true, hq]
  | succ k =>
    have hexp : f.lowest + ((k + 1 : Nat) : Int) - 1 = (k : Int) + f.lowest := by
      push_cast
      ring
    simp only [Nat.succ_ne_zero, if_false, hq, hexp, Nat.add_sub_cancel]
    rw [zpow_add₀ two_ne_zero, zpow_natCast]
    push_cast
    ring

/-- The value is that of the rank. -/
theorem toRat_eq (x : Floating f) : x.toRat = f.signedUnits x.rank * 2 ^ f.lowest := by
  rw [toRat, ratio_eq, rank]
  cases x.negative with
  | false => simp [FloatFormat.signedUnits_natCast]
  | true => simp [FloatFormat.signedUnits_neg, FloatFormat.signedUnits_natCast]

theorem toRat_lt_iff : x.toRat < y.toRat ↔ x.rank < y.rank := by
  have hpos : (0 : ℚ) < 2 ^ f.lowest := zpow_pos (by norm_num) _
  rw [toRat_eq, toRat_eq, mul_lt_mul_iff_left₀ hpos, Int.cast_lt, FloatFormat.signedUnits_lt_iff]

theorem toRat_eq_iff : x.toRat = y.toRat ↔ x.rank = y.rank := by
  have hpos : (2 : ℚ) ^ f.lowest ≠ 0 := zpow_ne_zero _ two_ne_zero
  rw [toRat_eq, toRat_eq, mul_left_inj' hpos, Int.cast_inj, FloatFormat.signedUnits_inj]

theorem isNaN_of_isFinite (hx : x.isFinite = true) : x.isNaN = false := by
  rw [isFinite, decide_eq_true_eq] at hx
  rw [isNaN, decide_eq_false_iff_not]
  exact Nat.lt_asymm hx

/-- **Finite values are compared as the numbers that they stand for.** -/
theorem less_iff (hx : x.isFinite = true) (hy : y.isFinite = true) :
    x.less y = true ↔ x.toRat < y.toRat := by
  rw [less, isNaN_of_isFinite hx, isNaN_of_isFinite hy, toRat_lt_iff]
  simp

theorem same_iff (hx : x.isFinite = true) (hy : y.isFinite = true) :
    x.same y = true ↔ x.toRat = y.toRat := by
  rw [same, isNaN_of_isFinite hx, isNaN_of_isFinite hy, toRat_eq_iff]
  simp

/-- Above zero the word is the rank. -/
theorem word_eq_rank (h : 0 < x.rank) : (x.word : Int) = x.rank := by
  rw [rank] at h ⊢
  cases hneg : x.negative with
  | true =>
    rw [hneg, if_pos rfl] at h
    omega
  | false =>
    rw [negative, decide_eq_false_iff_not, Nat.not_le] at hneg
    rw [if_neg (by simp), magnitude, Nat.mod_eq_of_lt hneg]

/-- **A number above zero has one word only.** -/
theorem eq_of_rank_eq (hpos : 0 < x.rank) (h : x.rank = y.rank) : x = y := by
  have hword : (x.word : Int) = y.word := by
    rw [word_eq_rank hpos, word_eq_rank (h ▸ hpos), h]
  cases x
  cases y
  exact congrArg Floating.mk (BitVec.eq_of_toNat_eq (Int.ofNat.inj hword))

theorem eq_of_toRat_eq (hpos : 0 < x.toRat) (h : x.toRat = y.toRat) : x = y := by
  have hrank : 0 < x.rank := by
    have hunit : (0 : ℚ) < 2 ^ f.lowest := zpow_pos (by norm_num) _
    have hzero : f.signedUnits 0 = 0 := by simp [FloatFormat.signedUnits]
    rwa [toRat_eq, mul_pos_iff_of_pos_right hunit, Int.cast_pos, ← hzero,
      FloatFormat.signedUnits_lt_iff] at hpos
  exact eq_of_rank_eq hrank (toRat_eq_iff.mp h)

/-- Comparing with a number above zero is comparing words. -/
theorem same_iff_eq (hpos : 0 < y.rank) (hy : y.isNaN = false) : x.same y = true ↔ x = y := by
  constructor
  · intro h
    simp only [same, Bool.and_eq_true, decide_eq_true_eq] at h
    exact (eq_of_rank_eq hpos h.2.symm).symm
  · rintro rfl
    simp [same, hy]

@[simp] theorem toRat_one : (one : Single).toRat = 1 := by
  have hratio : (one : Single).ratio = (8388608, 8388608) := by decide
  have hsign : (one : Single).negative = false := by decide
  rw [toRat, hratio, hsign]
  norm_num

end Floating

end LayerGraph
