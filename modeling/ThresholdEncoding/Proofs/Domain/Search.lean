import ThresholdEncoding.Proofs.Domain.Reach

/-!
# Ranks and rounding find what they look for

Over an enumerated domain, `rank` gives the number of values below a number, and rounding up gives
the value at that position. Over an open interval rounding can fail, but what it gives is right.

* `Enumeration.exists_rank_spec`, `Enumeration.roundUp_eq`: the two searches over closed domains.
* `Valid.roundsTo_of_roundUp`: rounding never skips a value, not even in a domain with more values
  than positions can count.
-/

namespace ThresholdEncoding.Domain

variable {d : Domain} {n r : Nat} {g : Nat → Int} {v w : Int}

/-- There is no value from `v` up to `w`. -/
def RoundsTo (d : Domain) (v w : Int) : Prop :=
  v ≤ w ∧ ∀ u ∈ d, Word.Fits u → v ≤ u → w ≤ u

theorem RoundsTo.le_iff {u : Int} (h : d.RoundsTo v w) (hu : u ∈ d) (hfits : Word.Fits u) :
    w ≤ u ↔ v ≤ u := ⟨fun hle => le_trans h.1 hle, h.2 u hu hfits⟩

/-- The least value that is not below `v`. -/
theorem RoundsTo.of_isLeast (h : IsLeast {u | u ∈ d ∧ v ≤ u} w) : d.RoundsTo v w :=
  ⟨h.1.2, fun _ hu _ hvu => h.2 ⟨hu, hvu⟩⟩

/-- Where the distance of neighbours is known, the answer is a point of the grid. -/
theorem Valid.roundsTo_of_step {s : Int} (h : d.Valid) (hstep : d.step? = some s)
    (hw : d.roundUp v = .ok w) : d.RoundsTo v w := by
  obtain ⟨c, hgrid⟩ := h.exists_onGrid hstep
  obtain ⟨w', hleast, hround⟩ := hgrid.exists_roundUp (le_upper_of_roundUp hw)
  rw [hround] at hw
  obtain rfl := eq_of_checked hw
  exact .of_isLeast hleast

/-- Elsewhere the answer is the least one of the values that can be looked up. No value is skipped if
the others lie behind them. -/
theorem Valid.roundsTo_of_search (h : d.Valid) (hstep : d.step? = none) (hw : d.roundUp v = .ok w)
    (hbehind : (d.startBound d.searchDirection).isFinite = true → ∀ u ∈ d, Word.Fits u →
      (∃ k, d.at? d.searchDirection k = some u) ∨
        ∀ k u', d.at? d.searchDirection k = some u' → u' ≤ u) : d.RoundsTo v w := by
  rcases h.roundUp_search hstep (le_upper_of_roundUp hw) with
    ⟨k, w', hat, hvw, hleast, hround⟩ | ⟨-, ⟨-, hround⟩ | ⟨-, hround⟩⟩
  · obtain rfl := Except.ok.inj (hround.symm.trans hw)
    refine ⟨hvw, fun u hu hfits hvu => ?_⟩
    rcases hbehind (h.isFinite_startBound_of_at? hat) u hu hfits with ⟨j, hj⟩ | hlast
    · exact hleast j u hj hvu
    · exact hlast k w' hat
  · rw [hround] at hw
    cases hw
  · rw [hround] at hw
    cases hw

/-! ### Closed domains

A closed domain may have more values than positions can count. Then only the positions below
`Shape.reach` can be asked for, and a search ends there. -/

namespace Enumeration

variable (h : d.Enumeration n g)
include h

/-- The values below a number come first. -/
theorem exists_rank (v : Int) : ∃ r ≤ n, ∀ k < n, (g k < v ↔ k < r) :=
  BoundarySearch.exists_boundary n fun hjk hk hlt => lt_of_le_of_lt (h.mono hjk hk) hlt

omit h in
/-- On a grid the number of values below a number is a rounded quotient. -/
theorem lt_quotient_iff {s : Int} (hs : 0 < s) (hstep : ∀ k < n, g k = g 0 + s * k) {k : Nat}
    (hk : k < n) : g k < v ↔ k < ((v - g 0 + s - 1) / s).toNat := by
  rw [hstep k hk]
  exact Domain.lt_quotient_iff hs

theorem size_eq_some (hn : n ≤ 9223372036854775808) : d.size? = some n :=
  h.size_eq (by unfold Word.positionLimit; omega)

/-- There are no more values than can be asked for, unless there are more than positions. -/
theorem le_reach (hn : n ≤ 9223372036854775808) : n ≤ d.shape.reach := by
  have hpos := h.pos
  have := h.lt_reach (show n - 1 < n by omega) (by omega)
  omega

section Rank
variable (hlt : ∀ k < n, (g k < v ↔ k < r))
include hlt

/-- The value at the rank is the first one that is not below. -/
theorem roundsTo_rank (hr : r < n) : d.RoundsTo v (g r) := by
  have hr' := hlt r hr
  refine ⟨by omega, fun u hu _ hvu => ?_⟩
  obtain ⟨k, hk, rfl⟩ := h.mem_iff.mp hu
  have := hlt k hk
  exact h.mono (by omega) hk

variable (hr : r ≤ n)
include hr

/-- A search for the values below `v` ends at their number or where positions end. -/
theorem boundary_eq : BoundarySearch.boundary d.size? (fun k => (d.ascending? k).any (· < v)) =
    min r d.shape.reach := by
  have hall : ∀ k, (d.ascending? k).any (· < v) = true ↔ k < min r d.shape.reach := by
    intro k
    rw [Option.any_eq_true]
    constructor
    · rintro ⟨u, hu, hlt'⟩
      obtain ⟨hk, hreach, rfl⟩ := h.ascending_iff.mp hu
      exact lt_min ((hlt k hk).mp (by simpa using hlt')) hreach
    · intro hk
      obtain ⟨hkr, hreach⟩ := lt_min_iff.mp hk
      exact ⟨g k, h.ascending_iff.mpr ⟨by omega, hreach, rfl⟩,
        by simpa using (hlt k (by omega)).mpr hkr⟩
  cases hsize : d.size? with
  | none =>
    have := reach_eq_of_size? hsize
    exact BoundarySearch.boundary_none (by omega) hall
  | some m =>
    obtain rfl := h.size_limit hsize
    exact BoundarySearch.boundary_some (by omega) fun k _ => hall k

theorem rank_eq_min (hstep : d.step? = none) : d.rank v = .ok (min r d.shape.reach) := by
  unfold rank
  rw [h.lower_eq]
  simp only [hstep]
  split_ifs with hv
  · have h0 := hlt 0 h.pos
    rw [show r = 0 by omega, Nat.zero_min]
  · rw [h.boundary_eq hlt hr]

omit hr in
/-- **Rounding up gives the value at the rank**, if that can be asked for. -/
theorem roundUp_eq (hr : r < n) (hreach : r < d.shape.reach) : d.roundUp v = .ok (g r) := by
  have hpos := h.pos
  have hlast := hlt (n - 1) (by omega)
  have hr' := hlt r hr
  unfold roundUp
  rw [h.upper_eq, h.lower_eq, if_neg (by rw [Extended.fin_lt_fin]; omega)]
  cases hstep : d.step? with
  | some s =>
    obtain ⟨hs, hgrid⟩ := h.step_eq hstep
    simp only [roundUpOnGrid]
    split_ifs with hv
    · have h0 := hlt 0 hpos
      rw [show r = 0 by omega]
    · -- `v` lies above the value before, so the next value is less than a step away
      have h0 := hlt 0 hpos
      have hprev := (hlt (r - 1) (by omega)).mpr (by omega)
      rw [hgrid (r - 1) (by omega)] at hprev
      have hcast : ((r - 1 : Nat) : Int) = r - 1 := by omega
      rw [hcast, mul_sub, mul_one] at hprev
      have hgr := hgrid r hr
      have hmod : (g 0 - v) % s = g r - v := by
        have h1 : g 0 - v = g r - v + s * (-r) := by rw [hgr]; ring
        rw [h1, Int.add_mul_emod_self_left]
        exact Int.emod_eq_of_lt (by omega) (by omega)
      rw [hmod, show v + (g r - v) = g r by ring]
      exact checked_of_fits (h.fits hr)
  | none =>
    simp only [Extended.isFinite_fin, if_true]
    rw [h.rank_eq_min hlt hr.le hstep, Except.ok_bind, min_eq_left hreach.le,
      ascending?, h.ascending_iff.mpr ⟨hr, hreach, rfl⟩]

end Rank

/-- A position behind those that can be asked for holds a value that is not negative, as there are
too many smaller ones. -/
theorem nonneg_of_reach_le {k : Nat} (hk : k < n) (hreach : d.shape.reach ≤ k) :
    9223372036854775808 < n ∧ 0 ≤ g k := by
  have hlimit : 9223372036854775808 ≤ k := by
    by_contra hsmall
    have := h.lt_reach hk (by omega)
    omega
  have hadd := h.add_le hk
  have hleast := (h.fits h.pos).1
  unfold Word.least at hleast
  omega

/-- **Ranks exist**, however many values there are. All values before a rank are below the number,
and the value at it is not, unless the positions ended there. -/
theorem exists_rank_spec (v : Int) : ∃ r, d.rank v = .ok r ∧ (∀ k < n, k < r → g k < v) ∧
    (n ≤ 9223372036854775808 → r ≤ n) ∧
    (r < n → v ≤ g r ∨ 9223372036854775808 < n ∧ 0 ≤ g r) := by
  obtain ⟨c, hc, hlt⟩ := h.exists_rank v
  cases hstep : d.step? with
  | none =>
    refine ⟨min c d.shape.reach, h.rank_eq_min hlt hc hstep, fun k hk hkr => ?_,
      fun _ => (min_le_left _ _).trans hc, fun hrn => ?_⟩
    · exact (hlt k hk).mpr (lt_of_lt_of_le hkr (min_le_left _ _))
    · rcases le_total c d.shape.reach with hle | hle
      · rw [min_eq_left hle] at hrn ⊢
        have := hlt c hrn
        exact Or.inl (by omega)
      · rw [min_eq_right hle] at hrn ⊢
        exact Or.inr (h.nonneg_of_reach_le hrn (le_refl _))
  | some s =>
    obtain ⟨hs, hgrid⟩ := h.step_eq hstep
    unfold rank
    rw [h.lower_eq]
    simp only [hstep]
    split_ifs with hv
    · exact ⟨0, rfl, fun k _ hk => absurd hk (Nat.not_lt_zero k), fun _ => Nat.zero_le n,
        fun _ => Or.inl hv⟩
    · -- the quotient counts the smaller values, and a known size does not cut it off too early
      have hquot : ∀ k < n, (g k < v ↔ k < ((v - g 0 + s - 1) / s).toNat) :=
        fun k hk => lt_quotient_iff hs hgrid hk
      generalize ((v - g 0 + s - 1) / s).toNat = i at hquot
      cases hsize : d.size? with
      | none =>
        refine ⟨i, rfl, fun k hk hki => (hquot k hk).mpr hki, fun hn => ?_, fun hin => Or.inl ?_⟩
        · rw [h.size_eq_some hn] at hsize
          cases hsize
        · have := hquot i hin
          omega
      | some m =>
        obtain rfl := h.size_limit hsize
        refine ⟨min i m, rfl, fun k hk hkr => (hquot k hk).mpr (by omega),
          fun _ => min_le_right _ _, fun hrn => Or.inl ?_⟩
        have := hquot (min i m) hrn
        omega

/-- **The rank is the number of values below**, if positions can count the values. -/
theorem rank_eq (hn : n ≤ 9223372036854775808) (hlt : ∀ k < n, (g k < v ↔ k < r)) (hr : r ≤ n) :
    d.rank v = .ok r := by
  obtain ⟨c, hc, hbelow, hcn, habove⟩ := h.exists_rank_spec v
  have hcn := hcn hn
  rw [hc]
  congr 1
  rcases lt_trichotomy c r with hlt' | heq | hgt
  · have h1 := hlt c (by omega)
    have h2 := habove (by omega)
    omega
  · exact heq
  · have h1 := hlt r (by omega)
    have h2 := hbelow r (by omega) hgt
    omega

/-- A value that can be asked for is found. -/
theorem contains_of_mem (hn : n ≤ d.shape.reach) (hv : v ∈ d) : d.contains v = true := by
  obtain ⟨r, hr, rfl⟩ := h.mem_iff.mp hv
  have hlt : ∀ k < n, (g k < g r ↔ k < r) := by
    intro k hk
    constructor
    · intro hgk
      by_contra hge
      exact absurd (h.mono (not_lt.mp hge) hk) (not_le.mpr hgk)
    · exact fun hkr => h.strict hkr hr
  unfold contains
  rw [h.roundUp_eq hlt hr (hr.trans_le hn)]
  simp

end Enumeration

/-! ### Open intervals -/

theorem step?_of_isInterval (hi : d.isInterval = true) (hm : Word.Fits d.multiplier) :
    d.step? = Word.check? d.multiplier.natAbs := by
  unfold isInterval at hi
  split at hi
  · next hs => exact step?_of_unit (by rw [hs]; rfl) hm
  · simp at hi

theorem size?_of_isOpen (h : d.Valid) (hi : d.isInterval = true) (ho : d.isOpen = true) :
    d.size? = none := by
  rcases h.interval_cases hi ho with ⟨a, hs⟩ | ⟨b, hs⟩ | hs <;> rw [size?, hs] <;> rfl

namespace HalfOpen

variable {dir : Direction} {e s u : Int} {k : Nat} (h : d.HalfOpen dir e s)
include h

omit h in
theorem mul_least_fits_iff {r : Int} :
    Word.Fits (r * -9223372036854775808) ↔ r = 0 ∨ r = 1 := by
  rw [Word.fits_iff]; omega

variable (hm : d.multiplier = -9223372036854775808)
include hm

/-- With a multiplier whose opposite does not fit there are at most two values. -/
theorem at_cases : d.at? dir k = some u ↔
    (e + s * k = 0 ∨ e + s * k = 1) ∧ (e + s * k) * -9223372036854775808 = u := by
  rw [h.at_iff, hm, mul_least_fits_iff]
  have h0 := h.fits_mul
  rw [hm, mul_least_fits_iff] at h0
  constructor
  · rintro ⟨-, -, h3, h4⟩; exact ⟨h3, h4⟩
  · rintro ⟨h3, h4⟩
    refine ⟨?_, Word.fits_of_natAbs_lt (by omega), h3, h4⟩
    rcases h.sign with rfl | rfl <;> omega

theorem exists_position (hu : u ∈ d) (hfits : Word.Fits u) : ∃ k, d.at? dir k = some u := by
  obtain ⟨k, rfl⟩ := h.mem_iff.mp hu
  rw [hm] at hfits ⊢
  exact ⟨k, (h.at_cases hm).mpr ⟨mul_least_fits_iff.mp hfits, rfl⟩⟩

end HalfOpen

namespace Valid

variable (h : d.Valid) (hi : d.isInterval = true)
include h hi

variable (ho : d.isOpen = true)
include ho

/-- The multiplier whose opposite does not fit leaves two values, which can be looked up. -/
theorem roundsTo_of_least (hm : d.multiplier = -9223372036854775808)
    (hw : d.roundUp v = .ok w) : d.RoundsTo v w := by
  have hstep : d.step? = none := by
    rw [step?_of_isInterval hi h.fits, hm]
    decide
  refine h.roundsTo_of_search hstep hw fun hfin u hu hfits => Or.inl ?_
  obtain ⟨e, s, hes⟩ := h.exists_halfOpen d.searchDirection hi ho hfin
  exact hes.exists_position hm hu hfits

omit ho in
/-- The width of an interval does not fit for one multiplier only. -/
theorem multiplier_of_step? (hstep : d.step? = none) :
    d.multiplier = -9223372036854775808 := by
  rwa [step?_of_isInterval hi h.fits, Word.check?_natAbs_eq_none_iff h.fits] at hstep

omit hi ho in
/-- **Rounding over a closed domain skips no value**, however many values there are. -/
theorem roundsTo_of_closed (ho : d.isOpen = false) (hstep : d.step? = none)
    (hw : d.roundUp v = .ok w) : d.RoundsTo v w := by
  obtain ⟨n, g, hg⟩ := h.exists_enumeration ho
  refine h.roundsTo_of_search hstep hw fun _ u hu _ => ?_
  obtain ⟨j, hj, rfl⟩ := hg.mem_iff.mp hu
  rw [hg.searchDirection_eq]
  by_cases hreach : j < d.shape.reach
  · exact Or.inl ⟨j, hg.ascending_iff.mpr ⟨hj, hreach, rfl⟩⟩
  · refine Or.inr fun k u' hu' => ?_
    obtain ⟨-, hk, rfl⟩ := hg.ascending_iff.mp hu'
    exact hg.mono (by omega) hj

omit hi ho in
/-- **Rounding never skips a value.** -/
theorem roundsTo_of_roundUp (hs : d.isOpen = false ∨ d.isInterval = true)
    (hw : d.roundUp v = .ok w) : d.RoundsTo v w := by
  cases hstep : d.step? with
  | some s => exact h.roundsTo_of_step hstep hw
  | none =>
    by_cases ho : d.isOpen = false
    · exact h.roundsTo_of_closed ho hstep hw
    · have hi := hs.resolve_left ho
      exact h.roundsTo_of_least hi (by simpa using ho) (h.multiplier_of_step? hi hstep) hw

end Valid

end ThresholdEncoding.Domain
