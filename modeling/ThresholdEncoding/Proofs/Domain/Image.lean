import ThresholdEncoding.Proofs.Domain.WellFormed

/-!
# Which images can be built

The value of a function is computed in two steps, a product or a power first. An image is refused if
a step does not fit at an end of the index range. So a value at an end can be refused although it
fits: the product with the slope may leave the 64 bit range before the offset brings it back, and a
power may be the opposite of the least number before it is multiplied by `-1`. No other computation
strays, and no index between the ends needs to be looked at.

* `MonotoneFn.Strays`: a value is computed from a number that does not fit.
* `MonotoneFn.value?_eq_value_iff`: the exact condition under which a value can be computed.
* `Domain.image_eq_overflow_iff`: the exact condition under which an image is refused.
* `Domain.image_refuses_fitting`: images that are refused although the values at both ends fit.
-/

namespace ThresholdEncoding

/-- **A product that fits has factors that fit**, unless it is the least number, as the product of its
opposite and `-1`. -/
theorem Word.fits_of_mul_iff {c p : Int} (hc : c ≠ 0) (h : Fits (c * p)) :
    Fits p ↔ ¬ (c = -1 ∧ p = -least) := by
  constructor
  · rintro hp ⟨-, rfl⟩
    revert hp
    decide
  · intro hne
    have hbound := natAbs_le_of_fits h
    rw [Int.natAbs_mul] at hbound
    have hle : p.natAbs ≤ c.natAbs * p.natAbs := Nat.le_mul_of_pos_left _ (Int.natAbs_pos.mpr hc)
    by_contra hp
    have hpeq : p = -least := by
      rw [fits_iff] at hp
      unfold least
      omega
    have hunit : c = 1 ∨ c = -1 := by
      rw [hpeq, show (-least).natAbs = 9223372036854775808 from rfl] at hbound
      omega
    rcases hunit with rfl | rfl
    · rw [one_mul] at h
      exact hp h
    · exact hne ⟨rfl, hpeq⟩

namespace MonotoneFn

variable {f : MonotoneFn} {lo i : Int} {hi : Extended} {dir : Direction}

/-- The value at an index is computed from a number that does not fit, whether or not it fits
itself. -/
def Strays : MonotoneFn → Int → Prop
  | affine s _, i => ¬ Word.Fits (s * i)
  | power e c, i => c = -1 ∧ i ^ e = -Word.least
  | exponential b c, i => c = -1 ∧ b ^ i.toNat = -Word.least

instance : (f : MonotoneFn) → (i : Int) → Decidable (f.Strays i)
  | affine _ _, _ => inferInstanceAs (Decidable (¬ _))
  | power _ _, _ => inferInstanceAs (Decidable (_ ∧ _))
  | exponential _ _, _ => inferInstanceAs (Decidable (_ ∧ _))

/-- An exponential whose value fits has an index that is small enough to be an exponent. -/
theorem lt_exponentLimit_of_fits {b c : Int} (hb : 2 ≤ b) (hc : c ≠ 0)
    (h : Word.Fits (c * b ^ i.toNat)) : i < exponentLimit := by
  by_contra hlt
  unfold exponentLimit at hlt
  have hbig : 2 ^ 64 ≤ (b ^ i.toNat).natAbs := by
    rw [Int.natAbs_pow]
    exact le_trans (Nat.pow_le_pow_left (by omega) 64) (Nat.pow_le_pow_right (by omega) (by omega))
  have hbound := Word.natAbs_le_of_fits h
  rw [Int.natAbs_mul] at hbound
  have := Nat.le_mul_of_pos_left (b ^ i.toNat).natAbs (Int.natAbs_pos.mpr hc)
  omega

/-- **The exact condition under which a value can be computed**: it fits, and so does the number that
it is computed from. -/
theorem value?_eq_value_iff (h : f.direction? lo hi = some dir) (hlo : lo ≤ i) :
    f.value? i = some (f.value i) ↔ Word.Fits (f.value i) ∧ ¬ f.Strays i := by
  cases f with
  | affine s o =>
    rw [value?_affine_eq_some_iff]
    simp only [value, Strays, not_not, and_true]
    exact and_comm
  | power e c =>
    simp only [direction?] at h
    split_ifs at h with h0
    all_goals
      rw [value?_power_eq_some_iff]
      simp only [value, Strays, Word.int_pow_eq, and_true]
      rw [and_comm]
      exact and_congr_right fun hfits => Word.fits_of_mul_iff (by tauto) hfits
  | exponential b c =>
    simp only [direction?] at h
    split_ifs at h with h0
    obtain ⟨hb, hc, hpos⟩ : 2 ≤ b ∧ c ≠ 0 ∧ 0 ≤ lo := by omega
    rw [value?_exponential_eq_some_iff]
    simp only [value, Strays, Word.int_pow_eq, and_true]
    constructor
    · rintro ⟨-, hpow, hfits⟩
      exact ⟨hfits, (Word.fits_of_mul_iff hc hfits).mp hpow⟩
    · rintro ⟨hfits, hstray⟩
      exact ⟨⟨by omega, lt_exponentLimit_of_fits hb hc hfits⟩,
        (Word.fits_of_mul_iff hc hfits).mpr hstray, hfits⟩

theorem value?_eq_none_iff (h : f.direction? lo hi = some dir) (hlo : lo ≤ i) :
    f.value? i = none ↔ ¬ Word.Fits (f.value i) ∨ f.Strays i := by
  rw [← not_iff_not, not_or, not_not, ← value?_eq_value_iff h hlo, ← ne_eq,
    Option.ne_none_iff_exists']
  exact ⟨fun ⟨v, hv⟩ => (value?_eq_some hv).1 ▸ hv, fun hv => ⟨_, hv⟩⟩

end MonotoneFn

namespace Domain

/-- **The exact condition under which an image is refused.** Of a function that goes in one direction
on the indices from `lo` to `hi`, the image is refused just when the value at `lo` or at `hi` does not
fit or is computed from a number that does not fit. Otherwise it is built, and the value at every
index between the ends is computed exactly. -/
theorem image_eq_overflow_iff (f : MonotoneFn) (lo hi : Int) (hle : lo ≤ hi)
    (hdir : f.direction? lo (.fin hi) ≠ none) :
    (image f lo (.fin hi) = .error .overflow ↔
      ∃ i, (i = lo ∨ i = hi) ∧ (¬ Word.Fits (f.value i) ∨ f.Strays i)) ∧
    (image f lo (.fin hi) ≠ .error .overflow →
      image f lo (.fin hi) = .ok { shape := .image f lo (.fin hi) } ∧
        ∀ i, lo ≤ i → i ≤ hi → f.value? i = some (f.value i)) := by
  obtain ⟨dir, hsome⟩ := Option.ne_none_iff_exists'.mp hdir
  have himage : image f lo (.fin hi) = if f.value? lo = none ∨ f.value? hi = none
      then .error .overflow else .ok { shape := .image f lo (.fin hi) } := by
    have hcross : ¬ Extended.fin hi < .fin lo := Extended.not_lt.mpr hle
    simp [image, hcross, hdir, Extended.finite?]
  rw [himage]
  split_ifs with hends
  · refine ⟨iff_of_true rfl ?_, fun h => absurd rfl h⟩
    rcases hends with hnone | hnone
    · exact ⟨lo, Or.inl rfl, (MonotoneFn.value?_eq_none_iff hsome le_rfl).mp hnone⟩
    · exact ⟨hi, Or.inr rfl, (MonotoneFn.value?_eq_none_iff hsome hle).mp hnone⟩
  · obtain ⟨hlo, hhi⟩ := not_or.mp hends
    obtain ⟨u, hu⟩ := Option.ne_none_iff_exists'.mp hlo
    obtain ⟨v, hv⟩ := Option.ne_none_iff_exists'.mp hhi
    refine ⟨iff_of_false (by simp) ?_, fun _ => ⟨rfl, fun i h1 h2 => ?_⟩⟩
    · rintro ⟨i, rfl | rfl, hbad⟩
      · exact hlo ((MonotoneFn.value?_eq_none_iff hsome le_rfl).mpr hbad)
      · exact hhi ((MonotoneFn.value?_eq_none_iff hsome hle).mpr hbad)
    · exact MonotoneFn.value?_of_between hsome h1 h2 (Extended.le_refl _) hu hv

/-- A power whose values just fit is accepted; with the opposite coefficient the greatest of them
could be the least number, and is not computed. -/
theorem image_eq_overflow_iff_cubes :
    (∀ i : Int, -2097151 ≤ i → i ≤ 2097151 →
      (MonotoneFn.power 3 (-1)).value? i = some ((MonotoneFn.power 3 (-1)).value i)) ∧
    image (.power 3 (-1)) (-2097151) (.fin 2097152) = .error .overflow := by
  have hbuilt := (image_eq_overflow_iff (.power 3 (-1)) (-2097151) 2097151 (by decide)
    (by decide)).2 (by decide)
  have hrefused := (image_eq_overflow_iff (.power 3 (-1)) (-2097151) 2097152 (by decide)
    (by decide)).1.mpr ⟨2097152, Or.inr rfl, Or.inr (by decide)⟩
  exact ⟨hbuilt.2, hrefused⟩

/-- **Images can be refused although the values at both ends fit**: the even numbers from the least
one to `0`, as the product `2 * 2 ^ 62` does not fit, and the opposites of the powers of two down to
the least number. -/
theorem image_refuses_fitting :
    (image (.affine 2 Word.least) 0 (.fin 4611686018427387904) = .error .overflow ∧
      (MonotoneFn.affine 2 Word.least).direction? 0 (.fin 4611686018427387904) = some .ascending ∧
      Word.Fits ((MonotoneFn.affine 2 Word.least).value 0) ∧
      Word.Fits ((MonotoneFn.affine 2 Word.least).value 4611686018427387904)) ∧
    (image (.exponential 2 (-1)) 0 (.fin 63) = .error .overflow ∧
      (MonotoneFn.exponential 2 (-1)).direction? 0 (.fin 63) = some .descending ∧
      Word.Fits ((MonotoneFn.exponential 2 (-1)).value 0) ∧
      Word.Fits ((MonotoneFn.exponential 2 (-1)).value 63)) := by
  decide

end Domain

end ThresholdEncoding
