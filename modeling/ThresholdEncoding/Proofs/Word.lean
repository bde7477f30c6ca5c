import Mathlib.Tactic
import ThresholdEncoding.Word

/-!
# Checked arithmetic and rounding quotients

Facts about the 64 bit range that the library relies on: numbers between two that fit fit, the two
rounding quotients are the extreme solutions of a linear inequality, and powers are computed exactly
or refused.

* `check?_natAbs_eq_none_iff`: only the least number has no absolute value.
* `lt_ceilDiv_iff`, `le_fdiv_iff`: what the rounding quotients mean.
* `pow?_eq_check?`: powers are refused without being computed when they are too large.
-/

namespace ThresholdEncoding.Word

variable {a b n : Int}

/-! ### The range -/

theorem fits_of_between (ha : Fits a) (hb : Fits b) (h1 : a ≤ n) (h2 : n ≤ b) : Fits n := by
  rw [fits_iff] at *; omega

theorem fits_of_natAbs_lt (h : n.natAbs < 9223372036854775808) : Fits n := by
  rw [fits_iff]; omega

theorem natAbs_le_of_fits (h : Fits n) : n.natAbs ≤ 9223372036854775808 := by
  rw [fits_iff] at h; omega

theorem fits_natCast_iff {k : Nat} : Fits (k : Int) ↔ k < 9223372036854775808 := by
  rw [fits_iff]; omega

theorem fits_zero : Fits 0 := by decide

/-! ### Absolute values -/

theorem fits_natAbs_iff (h : Fits n) : Fits n.natAbs ↔ n ≠ least := by
  rw [fits_iff] at *
  unfold least
  omega

theorem check?_natAbs_eq_none_iff (h : Fits n) : check? n.natAbs = none ↔ n = least := by
  rw [check?_eq_none_iff, fits_natAbs_iff h, not_not]

/-- An absolute value that has not wrapped is exact. -/
theorem wrap_natAbs (h : Fits n) (hn : wrap n.natAbs ≠ least) : wrap n.natAbs = n.natAbs := by
  refine wrap_of_fits ((fits_natAbs_iff h).mpr ?_)
  rintro rfl
  exact hn wrap_neg_least

/-! ### Quotients -/

/-- Rounding up gives the least number that is not below the quotient. -/
theorem lt_ceilDiv_iff {w q : Int} (hw : 0 < w) : q < ceilDiv a w ↔ w * q < a := by
  have h : -a / w < -q ↔ -a < -q * w := Int.ediv_lt_iff_lt_mul hw
  rw [neg_mul, mul_comm q w] at h
  unfold ceilDiv
  rw [Int.fdiv_eq_ediv_of_nonneg _ hw.le]
  omega

theorem ceilDiv_le_iff {w q : Int} (hw : 0 < w) : ceilDiv a w ≤ q ↔ a ≤ w * q := by
  have := lt_ceilDiv_iff (a := a) (q := q) hw
  omega

/-- Rounding down gives the greatest number that is not above the quotient; for a negative divisor
the inequality turns around. -/
theorem le_fdiv_iff {w q : Int} (hw : w < 0) : q ≤ a.fdiv w ↔ a ≤ w * q := by
  have h : q ≤ -a / -w ↔ q * -w ≤ -a := Int.le_ediv_iff_mul_le (by omega)
  rw [mul_neg, mul_comm q w] at h
  rw [← Int.neg_fdiv_neg, Int.fdiv_eq_ediv_of_nonneg _ (by omega), h]
  omega

theorem fdiv_lt_iff {w q : Int} (hw : w < 0) : a.fdiv w < q ↔ w * q < a := by
  have := le_fdiv_iff (a := a) (q := q) hw
  omega

/-- A quotient is no larger than the dividend. -/
theorem natAbs_fdiv_le {w : Int} (hw : w < 0) : (a.fdiv w).natAbs ≤ a.natAbs := by
  have h0 : a ≤ a.natAbs ∧ -(a.natAbs : Int) ≤ a := by omega
  have h1 : -(a.natAbs : Int) ≤ a.fdiv w := (le_fdiv_iff hw).mpr (by nlinarith)
  have h2 : a.fdiv w < a.natAbs + 1 := (fdiv_lt_iff hw).mpr (by nlinarith)
  omega

theorem floorDiv?_eq_check? {w : Int} (hw : w ≠ 0) : floorDiv? a w = check? (a.fdiv w) := if_neg hw

/-! ### Powers -/

theorem int_pow_eq (b : Int) (e : Nat) : b.pow e = b ^ e := rfl

/-- The `64`-th power of a number of magnitude at least two does not fit. -/
theorem not_fits_pow {e : Nat} (hb : 2 ≤ b.natAbs) (he : 64 ≤ e) : ¬ Fits (b ^ e) := by
  intro h
  have h1 := natAbs_le_of_fits h
  rw [Int.natAbs_pow] at h1
  have h2 : 2 ^ 64 ≤ b.natAbs ^ e :=
    le_trans (Nat.pow_le_pow_left hb 64) (Nat.pow_le_pow_right (by omega) he)
  omega

/-- **Powers are computed exactly or refused.** -/
theorem pow?_eq_check? (e : Nat) : pow? b e = check? (b ^ e) := by
  unfold pow?
  rw [int_pow_eq]
  split_ifs with h1 h2 h3 h4
  · rfl
  · rcases h2 with rfl | rfl
    · rw [zero_pow (by omega), check?_of_fits (by decide)]
    · rw [one_pow, check?_of_fits (by decide)]
  · rw [h3, Even.neg_one_pow (Nat.even_iff.mpr h4), check?_of_fits (by decide)]
  · rw [h3, Odd.neg_one_pow (Nat.odd_iff.mpr (by omega)), check?_of_fits (by decide)]
  · rw [check?_of_not_fits (not_fits_pow (by omega) (by omega))]

end ThresholdEncoding.Word
