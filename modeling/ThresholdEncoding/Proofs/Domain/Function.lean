import Mathlib.Tactic
import Mathlib.Algebra.Order.Ring.Pow
import ThresholdEncoding.Domain.Function
import ThresholdEncoding.Proofs.Extended

/-!
# Monotone functions on an index range

Where `direction?` finds a direction, the function is strictly monotone in it. Therefore a function
whose values at both ends of a range can be computed can be computed everywhere between them, with
no step of the computation leaving the 64 bit range.

* `value_precedes`: strict monotonicity.
* `value?_of_between`: no overflow between two indices without one.
-/

namespace ThresholdEncoding

/-- The first number comes before the second one in the direction. -/
def Direction.Precedes : Direction → Int → Int → Prop
  | ascending, a, b => a < b
  | descending, a, b => b < a

namespace MonotoneFn

variable {f : MonotoneFn} {lo i j : Int} {hi : Extended} {dir : Direction}

/-! ### Strict monotonicity -/

theorem precedes_mul {c x y : Int} (hc : c ≠ 0) (h : x < y) :
    (Direction.ofStep c).Precedes (c * x) (c * y) := by
  unfold Direction.ofStep
  split_ifs with hpos
  · exact mul_lt_mul_of_pos_left h hpos
  · exact mul_lt_mul_of_neg_left h (by omega)

theorem precedes_mul_of_gt {c x y : Int} (hc : c ≠ 0) (h : y < x) :
    (Direction.ofStep (-c)).Precedes (c * x) (c * y) := by
  have := precedes_mul (c := -c) (x := -x) (y := -y) (by omega) (by omega)
  rwa [neg_mul_neg, neg_mul_neg] at this

theorem pow_lt_pow_of_odd {e : Nat} (he : e % 2 = 1) (h : i < j) : i ^ e < j ^ e :=
  (Nat.odd_iff.mpr he).strictMono_pow h

theorem pow_lt_pow_of_nonneg {e : Nat} (he : e ≠ 0) (hi : 0 ≤ i) (h : i < j) : i ^ e < j ^ e :=
  pow_lt_pow_left₀ h hi he

theorem pow_lt_pow_of_nonpos {e : Nat} (he : e ≠ 0) (he2 : e % 2 = 0) (hj : j ≤ 0) (h : i < j) :
    j ^ e < i ^ e := by
  have := pow_lt_pow_of_nonneg he (i := -j) (j := -i) (by omega) (by omega)
  rwa [(Nat.even_iff.mpr he2).neg_pow, (Nat.even_iff.mpr he2).neg_pow] at this

/-- **The function is strictly monotone** on the indices for which a direction is found. -/
theorem value_precedes (h : f.direction? lo hi = some dir) (hlo : lo ≤ i) (hij : i < j)
    (hj : .fin j ≤ hi) : dir.Precedes (f.value i) (f.value j) := by
  cases f with
  | affine s o =>
    simp only [direction?] at h
    split_ifs at h with hs
    cases h
    have := precedes_mul hs hij
    unfold Direction.ofStep at this ⊢
    simp only [value]
    split_ifs at this ⊢ <;> simp only [Direction.Precedes] at this ⊢ <;> omega
  | power e c =>
    simp only [direction?] at h
    split_ifs at h with h0 h1 h2 <;> cases h
    · refine precedes_mul (by tauto) ?_
      rcases h1 with h1 | h1
      · exact pow_lt_pow_of_odd h1 hij
      · exact pow_lt_pow_of_nonneg (by tauto) (by omega) hij
    · have hj0 : j ≤ 0 := Extended.fin_le_fin.mp (Extended.le_trans hj h2)
      exact precedes_mul_of_gt (by tauto) (pow_lt_pow_of_nonpos (by tauto) (by omega) hj0 hij)
  | exponential b c =>
    simp only [direction?] at h
    split_ifs at h with h0
    cases h
    exact precedes_mul (by tauto) (pow_lt_pow_right₀ (by omega) (by omega))

theorem value_eq_or_precedes (h : f.direction? lo hi = some dir) (hlo : lo ≤ i) (hij : i ≤ j)
    (hj : .fin j ≤ hi) : f.value i = f.value j ∨ dir.Precedes (f.value i) (f.value j) := by
  rcases hij.eq_or_lt with rfl | hlt
  · exact Or.inl rfl
  · exact Or.inr (value_precedes h hlo hlt hj)

/-- A value at an index lies between the values at the indices around it. -/
theorem value_between (h : f.direction? lo hi = some dir) (hlo : lo ≤ i) (hij : i ≤ j)
    (hj : .fin j ≤ hi) :
    f.value lo ≤ f.value i ∧ f.value i ≤ f.value j ∨
      f.value j ≤ f.value i ∧ f.value i ≤ f.value lo := by
  have h1 := value_eq_or_precedes h (le_refl lo) hlo
    (Extended.le_trans (Extended.fin_le_fin.mpr hij) hj)
  have h2 := value_eq_or_precedes h hlo hij hj
  cases dir <;> simp only [Direction.Precedes] at h1 h2 <;> omega

theorem fits_value_of_between (h : f.direction? lo hi = some dir) (hlo : lo ≤ i) (hij : i ≤ j)
    (hj : .fin j ≤ hi) (h1 : Word.Fits (f.value lo)) (h2 : Word.Fits (f.value j)) :
    Word.Fits (f.value i) := by
  rcases value_between h hlo hij hj with ⟨h3, h4⟩ | ⟨h3, h4⟩
  · exact Word.fits_of_between h1 h2 h3 h4
  · exact Word.fits_of_between h2 h1 h3 h4

/-! ### Computing values -/

theorem value?_affine_eq_some_iff {s o v : Int} :
    (affine s o).value? i = some v ↔
      Word.Fits (s * i) ∧ Word.Fits (s * i + o) ∧ v = s * i + o := by
  simp only [value?, Option.bind_eq_some_iff, Word.check?_eq_some_iff]
  constructor
  · rintro ⟨_, ⟨rfl, h1⟩, rfl, h2⟩; exact ⟨h1, h2, rfl⟩
  · rintro ⟨h1, h2, rfl⟩; exact ⟨_, ⟨rfl, h1⟩, rfl, h2⟩

theorem value?_power_eq_some_iff {e : Nat} {c v : Int} :
    (power e c).value? i = some v ↔
      Word.Fits (i ^ e) ∧ Word.Fits (c * i ^ e) ∧ v = c * i ^ e := by
  simp only [value?, Option.bind_eq_some_iff, Word.pow?_eq_check?, Word.check?_eq_some_iff]
  constructor
  · rintro ⟨_, ⟨rfl, h1⟩, rfl, h2⟩; exact ⟨h1, by rwa [mul_comm], mul_comm _ _⟩
  · rintro ⟨h1, h2, rfl⟩; exact ⟨_, ⟨rfl, h1⟩, mul_comm _ _, by rwa [mul_comm]⟩

theorem value?_exponential_eq_some_iff {b c v : Int} :
    (exponential b c).value? i = some v ↔ (0 ≤ i ∧ i < exponentLimit) ∧
      Word.Fits (b ^ i.toNat) ∧ Word.Fits (c * b ^ i.toNat) ∧ v = c * b ^ i.toNat := by
  simp only [value?, Option.ite_none_right_eq_some, Option.bind_eq_some_iff, Word.pow?_eq_check?,
    Word.check?_eq_some_iff]
  constructor
  · rintro ⟨h, _, ⟨rfl, h1⟩, rfl, h2⟩; exact ⟨h, h1, by rwa [mul_comm], mul_comm _ _⟩
  · rintro ⟨h, h1, h2, rfl⟩; exact ⟨h, _, ⟨rfl, h1⟩, mul_comm _ _, by rwa [mul_comm]⟩

/-- What is computed is the exact value, and it fits. -/
theorem value?_eq_some {v : Int} (h : f.value? i = some v) : v = f.value i ∧ Word.Fits v := by
  cases f with
  | affine s o => obtain ⟨-, h1, rfl⟩ := value?_affine_eq_some_iff.mp h; exact ⟨rfl, h1⟩
  | power e c => obtain ⟨-, h1, rfl⟩ := value?_power_eq_some_iff.mp h; exact ⟨rfl, h1⟩
  | exponential b c =>
    obtain ⟨-, -, h1, rfl⟩ := value?_exponential_eq_some_iff.mp h; exact ⟨rfl, h1⟩

/-- **No overflow in between**: a function that can be computed at two indices of a range on which
it is monotone can be computed at all indices between them. -/
theorem value?_of_between (h : f.direction? lo hi = some dir) (hlo : lo ≤ i) (hij : i ≤ j)
    (hj : .fin j ≤ hi) {u v : Int} (h1 : f.value? lo = some u) (h2 : f.value? j = some v) :
    f.value? i = some (f.value i) := by
  have hfits : Word.Fits (f.value i) := by
    refine fits_value_of_between h hlo hij hj ?_ ?_
    · obtain ⟨rfl, hu⟩ := value?_eq_some h1; exact hu
    · obtain ⟨rfl, hv⟩ := value?_eq_some h2; exact hv
  -- the first step of each computation is a function of the same kind, monotone on the same range
  cases f with
  | affine s o =>
    refine value?_affine_eq_some_iff.mpr ⟨?_, hfits, rfl⟩
    have h3 : (affine s 0).direction? lo hi = some dir := h
    have := fits_value_of_between h3 hlo hij hj
    simp only [value, add_zero] at this
    exact this (value?_affine_eq_some_iff.mp h1).1 (value?_affine_eq_some_iff.mp h2).1
  | power e c =>
    refine value?_power_eq_some_iff.mpr ⟨?_, hfits, rfl⟩
    obtain ⟨dir', h3⟩ : ∃ dir', (power e 1).direction? lo hi = some dir' := by
      simp only [direction?] at h ⊢
      split_ifs at h ⊢ <;> first | exact ⟨_, rfl⟩ | tauto
    have := fits_value_of_between h3 hlo hij hj
    simp only [value, one_mul] at this
    exact this (value?_power_eq_some_iff.mp h1).1 (value?_power_eq_some_iff.mp h2).1
  | exponential b c =>
    obtain ⟨⟨h4, -⟩, h5, -⟩ := value?_exponential_eq_some_iff.mp h1
    obtain ⟨⟨-, h6⟩, h7, -⟩ := value?_exponential_eq_some_iff.mp h2
    refine value?_exponential_eq_some_iff.mpr ⟨⟨by omega, by omega⟩, ?_, hfits, rfl⟩
    have h3 : (exponential b 1).direction? lo hi = some (.ofStep 1) := by
      simp only [direction?] at h ⊢
      split_ifs at h ⊢ <;> first | rfl | omega
    have := fits_value_of_between h3 hlo hij hj
    simp only [value, one_mul] at this
    exact this h5 h7

end MonotoneFn

end ThresholdEncoding
