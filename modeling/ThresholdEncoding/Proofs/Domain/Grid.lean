import ThresholdEncoding.Domain.Search
import ThresholdEncoding.Proofs.Domain.Extent

/-!
# Grids

Where the form of a domain makes the distance of neighbouring values the same everywhere, the values
are all points of a grid between the bounds. Such a domain may be open at one end or at both. A number
is rounded up to the next point of the grid by a remainder, whichever point the grid is anchored at,
and the result is the least value that is not smaller. The only thing that can go wrong is that this
value is too large to be written.

* `Shape.exists_progression`: the members of a shape with a known distance.
* `OnGrid`, `Valid.exists_onGrid`: the values of a domain with a known distance.
* `OnGrid.isLeast`, `OnGrid.exists_roundUp`: rounding up on a grid.
-/

namespace ThresholdEncoding

/-! ### Shapes with a known distance -/

namespace Shape

variable {s : Shape} {lo hi : Extended} {w : Int}

theorem ordConnected_interval (lo hi : Extended) :
    {i : Int | lo ≤ .fin i ∧ .fin i ≤ hi}.OrdConnected := by
  refine ⟨fun i hi' j hj k hk => ?_⟩
  exact ⟨Extended.le_trans hi'.1 (Extended.fin_le_fin.mpr hk.1),
    Extended.le_trans (Extended.fin_le_fin.mpr hk.2) hj.2⟩

/-- An image has an end: the value at its first index. -/
theorem isFinite_end_image {f : MonotoneFn} {i : Int} (h : (image f i hi).WellFormed) :
    (image f i hi).lower.isFinite = true ∨ (image f i hi).upper.isFinite = true := by
  obtain ⟨-, -, -, -, hval, -⟩ := h
  simp only [lower, upper]
  split_ifs
  · exact Or.inl (by rw [endValue_fin hval]; rfl)
  · exact Or.inr (by rw [endValue_fin hval]; rfl)

/-- Only intervals are open at both ends, and `0` leaves no gap in them. -/
theorem step?_of_unbounded (h : s.WellFormed) (hs : s.size? ≠ some 0)
    (hlow : s.lower.isFinite = false) (hup : s.upper.isFinite = false) : s.step? = some 1 := by
  cases s with
  | interval lo hi => rfl
  | intervalWithZero lo hi =>
    simp only [lower, upper] at hlow hup
    split_ifs at hlow with hp
    · cases hlow
    split_ifs at hup with hf
    · cases hup
    simp [step?, hp, hf]
  | listed l =>
    cases l with
    | nil => exact absurd rfl hs
    | cons v l => cases hlow
  | image f i hi =>
    rcases isFinite_end_image h with hfin | hfin
    · rw [hfin] at hlow
      cases hlow
    · rw [hfin] at hup
      cases hup

/-- The members are what an affine function makes of numbers without gaps. Without an end the function
is the identity. -/
theorem exists_progression (h : s.WellFormed) (hw : s.step? = some w) (hne : w ≠ Word.least) :
    ∃ (p o : Int) (I : Set Int), p ≠ 0 ∧ (p.natAbs : Int) = w ∧ I.OrdConnected ∧
      (∀ r, r ∈ s ↔ ∃ i ∈ I, p * i + o = r) ∧
      (o = 0 ∨ s.lower.isFinite = true ∨ s.upper.isFinite = true) := by
  cases s with
  | interval lo hi =>
    cases hw
    refine ⟨1, 0, _, one_ne_zero, rfl, ordConnected_interval lo hi, fun r => ?_, Or.inl rfl⟩
    simp [mem_interval_iff]
  | intervalWithZero lo hi =>
    simp only [step?, Option.ite_none_left_eq_some, Bool.or_eq_true, not_or, zeroPrecedes,
      zeroFollows, decide_eq_true_eq, Extended.not_lt] at hw
    obtain ⟨h0, hw⟩ := hw
    cases hw
    refine ⟨1, 0, _, one_ne_zero, rfl, ordConnected_interval lo hi, fun r => ?_, Or.inl rfl⟩
    simp only [mem_intervalWithZero_iff, Set.mem_ofPred_eq, one_mul, add_zero, exists_eq_right]
    refine ⟨?_, Or.inr⟩
    rintro (rfl | hr)
    · exact h0
    · exact hr
  | listed l => cases hw
  | image f lo hi =>
    cases f with
    | affine p o =>
      obtain rfl : Word.wrap p.natAbs = w := Option.some.inj hw
      rw [Word.wrap_natAbs h.1.1.1 hne]
      have hp : p ≠ 0 := by rintro rfl; exact h.2.2.2.1 rfl
      refine ⟨p, o, _, hp, rfl, ordConnected_interval (.fin lo) hi, fun r => ?_,
        Or.inr (isFinite_end_image h)⟩
      simp only [mem_image_iff, Set.mem_ofPred_eq, Extended.fin_le_fin, and_assoc]
      rfl
    | power e c => cases hw
    | exponential b c => cases hw

end Shape

namespace Domain

variable {d : Domain} {s c c' u v w lo : Int}

/-! ### Values on a grid -/

/-- The number itself, or an overflow. -/
theorem checked_eq (n : Int) : checked n = if Word.Fits n then .ok n else .error .overflow := by
  unfold checked
  split_ifs with h
  · rw [Word.check?_of_fits h]
  · rw [Word.check?_of_not_fits h]

theorem checked_of_fits (h : Word.Fits v) : checked v = .ok v := by
  rw [checked_eq, if_pos h]

theorem eq_of_checked (h : checked v = .ok w) : v = w := by
  rw [checked_eq] at h
  split_ifs at h
  exact Except.ok.inj h

/-- Only numbers up to the upper bound are rounded up. -/
theorem le_upper_of_roundUp (h : d.roundUp v = .ok w) : .fin v ≤ d.upper := by
  by_contra hup
  unfold roundUp at h
  rw [if_pos (Extended.lt_iff.mpr hup)] at h
  cases h

/-- A number is contained if rounding does not move it. -/
theorem contains_iff : d.contains v = true ↔ d.roundUp v = .ok v := by
  unfold contains
  split
  · next w hw => rw [hw, decide_eq_true_iff, Except.ok.injEq]
  · next e he => rw [he]; simp

theorem fits_startBound (d : Domain) (dir : Direction) : (d.startBound dir).Fits := by
  rw [startBound_eq_scale]
  exact Extended.fits_scale _ _

theorem Valid.exists_mem (h : d.Valid) : ∃ u, u ∈ d := by
  have hstart := h.starts .ascending
  by_cases hfin : (d.startBound .ascending).isFinite = true
  · obtain ⟨n, hn⟩ := Extended.isFinite_iff.mp hfin
    rw [hn] at hstart
    exact ⟨n, hstart.1⟩
  · obtain ⟨-, hall⟩ := hstart.eq_infinity (by simpa using hfin)
    obtain ⟨u, hu, -⟩ := hall 0
    exact ⟨u, hu⟩

/-- A number that is not below the lower bound has a value on its lower side. -/
theorem Valid.exists_mem_le (h : d.Valid) (hu : d.lower ≤ .fin u) : ∃ a ∈ d, a ≤ u := by
  have hstart := h.starts .ascending
  rw [startBound] at hstart
  cases hlow : d.lower with
  | fin n =>
    rw [hlow] at hstart hu
    exact ⟨n, hstart.1, Extended.fin_le_fin.mp hu⟩
  | negInf =>
    rw [hlow] at hstart
    obtain ⟨a, ha, hlt⟩ := hstart.2 u
    exact ⟨a, ha, (show a < u from hlt).le⟩
  | posInf => rw [hlow] at hu; simp at hu

/-- A number that is not above the upper bound has a value on its upper side. -/
theorem Valid.exists_mem_ge (h : d.Valid) (hu : .fin u ≤ d.upper) : ∃ b ∈ d, u ≤ b := by
  have hstart := h.starts .descending
  rw [startBound] at hstart
  cases hup : d.upper with
  | fin n =>
    rw [hup] at hstart hu
    exact ⟨n, hstart.1, Extended.fin_le_fin.mp hu⟩
  | posInf =>
    rw [hup] at hstart
    obtain ⟨b, hb, hlt⟩ := hstart.2 u
    exact ⟨b, hb, (show u < b from hlt).le⟩
  | negInf => rw [hup] at hu; simp at hu

/-- No value is below a number just when the lower bound is not. -/
theorem Valid.le_lower_iff (h : d.Valid) : .fin w ≤ d.lower ↔ ∀ u ∈ d, w ≤ u := by
  constructor
  · exact fun hle u hu => Extended.fin_le_fin.mp (Extended.le_trans hle (h.between hu).1)
  · intro hall
    by_contra hlt
    have hprev : d.lower ≤ .fin (w - 1) := by
      cases hlow : d.lower with
      | fin n =>
        rw [hlow, Extended.fin_le_fin] at hlt
        rw [Extended.fin_le_fin]
        omega
      | negInf => exact Extended.negInf_le
      | posInf => exact absurd Extended.le_posInf (hlow ▸ hlt)
    obtain ⟨a, ha, haw⟩ := h.exists_mem_le hprev
    have := hall a ha
    omega

/-- All values are below a number just when the upper bound is. -/
theorem Valid.upper_lt_iff (h : d.Valid) : d.upper < .fin w ↔ ∀ u ∈ d, u < w := by
  constructor
  · exact fun hlt u hu =>
      Extended.fin_lt_fin.mp (Extended.lt_of_le_of_lt (h.between hu).2 hlt)
  · intro hall hle
    obtain ⟨b, hb, hwb⟩ := h.exists_mem_ge hle
    exact absurd hwb (not_le.mpr (hall b hb))

/-- The values are the points of a grid of width `s` between the bounds. -/
structure OnGrid (d : Domain) (s c : Int) : Prop where
  valid : d.Valid
  step_eq : d.step? = some s
  pos : 0 < s
  mem_iff : ∀ {u}, u ∈ d ↔ s ∣ u - c ∧ d.lower ≤ .fin u ∧ .fin u ≤ d.upper
  /-- Without a finite bound the grid goes through `0`. -/
  dvd : d.lower.isFinite = false → d.upper.isFinite = false → s ∣ c

/-- A finite end of the shape is a finite bound of the domain. -/
theorem isFinite_scale {x : Extended} {m : Int} (hx : x.scale? m ≠ none) (h : x.isFinite = true) :
    (x.scale m).isFinite = true := by
  obtain ⟨n, rfl⟩ := Extended.isFinite_iff.mp h
  rw [Extended.scale_fin_of_fits (Extended.scale?_fin_ne_none_iff.mp hx)]
  rfl

theorem WellFormed.isFinite_bound (h : d.WellFormed)
    (hs : d.shape.lower.isFinite = true ∨ d.shape.upper.isFinite = true) :
    d.lower.isFinite = true ∨ d.upper.isFinite = true := by
  have hlow := isFinite_scale h.lower
  have hup := isFinite_scale h.upper
  unfold Domain.lower Domain.upper
  split_ifs
  · exact hs.imp hlow hup
  · exact hs.symm.imp hup hlow

/-- **The values of a domain with a known distance form a grid.** A point of the grid between the
bounds lies between two values, so its index lies between theirs. -/
theorem Valid.exists_onGrid (h : d.Valid) (hstep : d.step? = some s) : ∃ c, d.OnGrid s c := by
  obtain ⟨w, hw, hs⟩ := exists_step_of_step? hstep
  obtain ⟨p, o, I, hp0, hp, hI, hmem, hend⟩ := Shape.exists_progression h.shape hw
    (shape_step?_ne_least h.multiplier_ne_zero hstep hw)
  have hval : ∀ {u}, u ∈ d ↔ ∃ i ∈ I, d.multiplier * (p * i + o) = u := by
    intro u
    rw [mem_iff]
    constructor
    · rintro ⟨r, hr, rfl⟩
      obtain ⟨i, hi, rfl⟩ := (hmem r).mp hr
      exact ⟨i, hi, rfl⟩
    · rintro ⟨i, hi, rfl⟩
      exact ⟨_, (hmem _).mpr ⟨i, hi, rfl⟩, rfl⟩
  have hwidth : s = (d.multiplier * p).natAbs := by
    rw [hs, ← hp, Int.natAbs_mul, Int.natAbs_mul, Int.natAbs_natCast, mul_comm]
  have hne : d.multiplier * p ≠ 0 := mul_ne_zero h.multiplier_ne_zero hp0
  refine ⟨d.multiplier * o, h, hstep, ?_, ?_, ?_⟩
  · rw [hwidth]
    exact Int.natCast_pos.mpr (Int.natAbs_pos.mpr hne)
  · intro u
    constructor
    · intro hu
      refine ⟨?_, h.between hu⟩
      obtain ⟨i, -, rfl⟩ := hval.mp hu
      rw [hwidth, Int.natAbs_dvd]
      exact ⟨i, by ring⟩
    · rintro ⟨hdvd, hlow, hup⟩
      rw [hwidth, Int.natAbs_dvd] at hdvd
      obtain ⟨i, hi⟩ := hdvd
      obtain ⟨a, ha, hau⟩ := h.exists_mem_le hlow
      obtain ⟨b, hb, hub⟩ := h.exists_mem_ge hup
      obtain ⟨j, hj, rfl⟩ := hval.mp ha
      obtain ⟨k, hk, rfl⟩ := hval.mp hb
      have hji : d.multiplier * p * j ≤ d.multiplier * p * i := by linarith
      have hik : d.multiplier * p * i ≤ d.multiplier * p * k := by linarith
      refine hval.mpr ⟨i, ?_, by linarith⟩
      rcases lt_or_gt_of_ne hne with hneg | hpos
      · exact hI.out hk hj ⟨(mul_le_mul_left_of_neg hneg).mp hik,
          (mul_le_mul_left_of_neg hneg).mp hji⟩
      · exact hI.out hj hk ⟨le_of_mul_le_mul_left hji hpos, le_of_mul_le_mul_left hik hpos⟩
  · intro hlow hup
    rcases hend with rfl | hend
    · rw [mul_zero]
      exact dvd_zero s
    · have := h.isFinite_bound hend
      simp [hlow, hup] at this

/-! ### Rounding up -/

/-- The next point of a grid is not above any other point of the grid that is not below `v`. -/
theorem next_le (hs : 0 < s) (hu : s ∣ u - c) (hvu : v ≤ u) : v + (c - v) % s ≤ u := by
  have hmod := Int.emod_add_mul_ediv (c - v) s
  have hlt := Int.emod_lt_of_pos (c - v) hs
  obtain ⟨q, hq⟩ := hu
  -- in steps of the grid, the distance of `u` from the next point is `q'`
  obtain ⟨q', hq'⟩ : ∃ q', u - (v + (c - v) % s) = s * q' := ⟨q + (c - v) / s, by linarith⟩
  have hq0 : -1 < q' := by
    by_contra hneg
    have : s * q' ≤ s * (-1) := mul_le_mul_of_nonneg_left (by omega) hs.le
    omega
  have := mul_nonneg hs.le (show 0 ≤ q' by omega)
  omega

theorem dvd_next_sub (s c v : Int) : s ∣ v + (c - v) % s - c := by
  have := Int.emod_add_mul_ediv (c - v) s
  exact ⟨-((c - v) / s), by linarith⟩

/-- The points of a grid below `v` are numbered up to a quotient. -/
theorem lt_quotient_iff (hs : 0 < s) {k : Nat} :
    lo + s * k < v ↔ k < ((v - lo + s - 1) / s).toNat := by
  have h1 : ((k : Int) + 1 ≤ (v - lo + s - 1) / s ↔ (k + 1) * s ≤ v - lo + s - 1) :=
    Int.le_ediv_iff_mul_le hs
  have h2 : ((k : Int) + 1) * s = s * k + s := by ring
  omega

namespace OnGrid

variable (h : d.OnGrid s c)
include h

theorem dvd_sub_of_mem (hu : u ∈ d) : s ∣ u - c := (h.mem_iff.mp hu).1

/-- The bounds are points of the grid. -/
theorem dvd_sub_lower (hlow : d.lower = .fin c') : s ∣ c' - c := by
  have hstart := h.valid.starts .ascending
  rw [startBound, hlow] at hstart
  exact h.dvd_sub_of_mem hstart.1

theorem dvd_sub_upper (hup : d.upper = .fin c') : s ∣ c' - c := by
  have hstart := h.valid.starts .descending
  rw [startBound, hup] at hstart
  exact h.dvd_sub_of_mem hstart.1

section Index
variable (hlow : d.lower = .fin lo)
include hlow

/-- Values are numbered from the lower bound on. -/
theorem exists_index (hu : u ∈ d) : ∃ k : Nat, lo + s * k = u := by
  have hle := (h.mem_iff.mp hu).2.1
  rw [hlow, Extended.fin_le_fin] at hle
  obtain ⟨q, hq⟩ : s ∣ u - lo := by
    have := dvd_sub (h.dvd_sub_of_mem hu) (h.dvd_sub_lower hlow)
    rwa [sub_sub_sub_cancel_right] at this
  have hq0 : 0 ≤ q := by
    by_contra hneg
    have := mul_neg_of_pos_of_neg h.pos (not_le.mp hneg)
    omega
  refine ⟨q.toNat, ?_⟩
  rw [Int.toNat_of_nonneg hq0]
  omega

theorem mem_of_index {k : Nat} (hup : .fin (lo + s * k) ≤ d.upper) : lo + s * k ∈ d := by
  have hmul : 0 ≤ s * (k : Int) := mul_nonneg h.pos.le (Int.natCast_nonneg k)
  refine h.mem_iff.mpr ⟨?_, ?_, hup⟩
  · have := dvd_add (h.dvd_sub_lower hlow) (dvd_mul_right s (k : Int))
    rwa [sub_add_eq_add_sub] at this
  · rw [hlow, Extended.fin_le_fin]
    omega

end Index

/-- **The next point of the grid** is the least value that is not below `v`, whichever point of the
grid it is computed from. -/
theorem isLeast (hc : s ∣ c' - c) (hlow : d.lower ≤ .fin v) (hup : .fin v ≤ d.upper) :
    IsLeast {u | u ∈ d ∧ v ≤ u} (v + (c' - v) % s) := by
  have hle : ∀ u, s ∣ u - c → v ≤ u → v + (c' - v) % s ≤ u := by
    intro u hu hvu
    have : s ∣ u - c' := by
      have := dvd_sub hu hc
      rwa [sub_sub_sub_cancel_right] at this
    exact next_le h.pos this hvu
  have hmod := Int.emod_nonneg (c' - v) h.pos.ne'
  have hgrid : s ∣ v + (c' - v) % s - c := by
    have := dvd_add (dvd_next_sub s c' v) hc
    rwa [sub_add_sub_cancel] at this
  have hmem : v + (c' - v) % s ∈ d := by
    obtain ⟨b, hb, hvb⟩ := h.valid.exists_mem_ge hup
    have hnext := hle b (h.dvd_sub_of_mem hb) hvb
    refine h.mem_iff.mpr ⟨hgrid, Extended.le_trans hlow (Extended.fin_le_fin.mpr (by omega)), ?_⟩
    exact Extended.le_trans (Extended.fin_le_fin.mpr hnext) (h.valid.between hb).2
  exact ⟨⟨hmem, by omega⟩, fun u hu => hle u (h.dvd_sub_of_mem hu.1) hu.2⟩

/-- **Rounding up on a grid** finds the least value that is not below `v`, or overflows if this value
is too large. -/
theorem exists_roundUp (hup : .fin v ≤ d.upper) :
    ∃ w, IsLeast {u | u ∈ d ∧ v ≤ u} w ∧ d.roundUp v = checked w := by
  unfold roundUp
  rw [if_neg (Extended.not_lt.mpr hup), h.step_eq]
  simp only [roundUpOnGrid]
  cases hlow : d.lower with
  | posInf =>
    obtain ⟨hne, -⟩ := (h.valid.starts .ascending).eq_infinity (by rw [startBound, hlow]; rfl)
    rw [startBound, hlow] at hne
    cases hne
  | fin lo =>
    have hstart := h.valid.starts .ascending
    rw [startBound, hlow] at hstart
    simp only
    split_ifs with hv
    · have hfits := fits_startBound d .ascending
      rw [startBound, hlow, Extended.fits_fin_iff] at hfits
      refine ⟨lo, ⟨⟨hstart.1, hv⟩, fun u hu => not_lt.mp (hstart.2 u hu.1)⟩, ?_⟩
      rw [checked_of_fits hfits]
    · have hle : d.lower ≤ .fin v := by
        rw [hlow, Extended.fin_le_fin]
        omega
      exact ⟨_, h.isLeast (h.dvd_sub_lower hlow) hle hup, rfl⟩
  | negInf =>
    have hle : d.lower ≤ .fin v := by rw [hlow]; exact Extended.negInf_le
    cases hhi : d.upper with
    | fin hi => exact ⟨_, h.isLeast (h.dvd_sub_upper hhi) hle hup, rfl⟩
    | negInf => rw [hhi] at hup; simp at hup
    | posInf =>
      have h0 : s ∣ 0 - c := by
        rw [zero_sub]
        exact (h.dvd (by rw [hlow]; rfl) (by rw [hhi]; rfl)).neg_right
      have hleast := h.isLeast h0 hle hup
      rw [zero_sub] at hleast
      exact ⟨_, hleast, rfl⟩

end OnGrid

end Domain

end ThresholdEncoding
