import ThresholdEncoding.Proofs.Domain.Grid
import ThresholdEncoding.Proofs.Domain.Position
import ThresholdEncoding.Proofs.Except

/-!
# Where rounding up succeeds

Up to the upper bound there is always a value to round to, but rounding may not get there. On a grid
the value is computed, and may be too large to be written. Elsewhere it is searched for among the
positions, and may lie behind the last one that can be looked up: positions end, and so do the indices
at which a function can be computed. A search starts at a finite bound. If neither bound is finite and
the distance of the values does not fit, there is nothing to start from and the run panics.

* `Valid.roundUp_search`: what a search among the positions finds.
* `Panics`, `Valid.roundUp_eq_panic_iff`: the exact condition under which rounding up panics.
* `Reaches`, `Valid.roundUp_eq_error_iff`: the exact condition under which rounding up fails.
* `Enumeration.reaches`: it never does in a closed domain whose values can all be addressed.
-/

namespace ThresholdEncoding.Domain

variable {d : Domain} {v w : Int} {n : Nat} {g : Nat → Int} {err : DomainError}

/-- The direction in which a value is searched for: from the lower bound on, or from the upper one
where there is no lower one. -/
def searchDirection (d : Domain) : Direction := if d.lower.isFinite then .ascending else .descending

/-- Rounding up gets to a value that is not below `v`: on a grid to one that can be written, elsewhere
to one that can be looked up. -/
def Reaches (d : Domain) (v : Int) : Prop :=
  match d.step? with
  | some _ => ∃ w, d.Admits w ∧ v ≤ w
  | none => ∃ k w, d.at? d.searchDirection k = some w ∧ v ≤ w

/-- Rounding up has neither a known distance nor a bound to search from: both bounds are infinite, and
the opposite of the multiplier does not fit. -/
def Panics (d : Domain) : Prop :=
  d.lower = .negInf ∧ d.upper = .posInf ∧ d.multiplier = Word.least

/-- What rounding up answers where it does not get to a value and does not panic. -/
def roundingFailure (d : Domain) (v : Int) : DomainError :=
  match d.step? with
  | some _ => .overflow
  | none => .outOfRange v d.upper

theorem roundingFailure_ne_panic (d : Domain) (v : Int) : d.roundingFailure v ≠ .panic := by
  unfold roundingFailure
  split <;> exact nofun

/-! ### Without bounds -/

/-- Between neighbouring integers the distance is the absolute value of the multiplier. -/
theorem step?_of_unit (hs : d.shape.step? = some 1) (hm : Word.Fits d.multiplier) :
    d.step? = Word.check? d.multiplier.natAbs := by
  simp only [step?, hs, Option.bind_some, one_mul, Word.check?_of_fits hm]

namespace Valid

variable (h : d.Valid)
include h

theorem step?_of_unbounded (hlow : d.lower.isFinite = false) (hup : d.upper.isFinite = false) :
    d.step? = Word.check? d.multiplier.natAbs := by
  have hends : ¬ (d.shape.lower.isFinite = true ∨ d.shape.upper.isFinite = true) := fun hs => by
    simpa [hlow, hup] using h.isFinite_bound hs
  rw [not_or, Bool.not_eq_true, Bool.not_eq_true] at hends
  have hsize := (requireValues_eq_ok_iff.mp h.hasValues).2
  exact step?_of_unit (Shape.step?_of_unbounded h.shape hsize hends.1 hends.2) h.fits

/-- **A run panics** where there is neither a known distance nor a bound. -/
theorem panics_iff : d.Panics ↔
    d.step? = none ∧ d.lower.isFinite = false ∧ d.upper.isFinite = false := by
  constructor
  · rintro ⟨hlow, hup, hm⟩
    have hlow' : d.lower.isFinite = false := by rw [hlow, Extended.isFinite_negInf]
    have hup' : d.upper.isFinite = false := by rw [hup, Extended.isFinite_posInf]
    refine ⟨?_, hlow', hup'⟩
    rw [h.step?_of_unbounded hlow' hup', Word.check?_natAbs_eq_none_iff h.fits, hm]
  · rintro ⟨hstep, hlow, hup⟩
    rw [h.step?_of_unbounded hlow hup, Word.check?_natAbs_eq_none_iff h.fits] at hstep
    exact ⟨((h.starts .ascending).eq_infinity hlow).1, ((h.starts .descending).eq_infinity hup).1,
      hstep⟩

/-! ### Searching -/

section Search
variable (hstep : d.step? = none)
include hstep

/-- Without a grid the rank is where the look-up first holds no smaller value. -/
theorem exists_rank_boundary (hlow : d.lower.isFinite = true) (v : Int) :
    ∃ b, d.rank v = .ok b ∧ ∀ k, (∃ u, d.ascending? k = some u ∧ u < v) ↔ k < b := by
  have hdown : ∀ {a c : Int}, Direction.ascending.Precedes a c → decide (c < v) = true →
      decide (a < v) = true := by
    intro a c hac hc
    simp only [Direction.Precedes, decide_eq_true_eq] at *
    omega
  obtain ⟨b, hb, hall⟩ := h.exists_boundary hdown
  simp only [Option.any_eq_true, decide_eq_true_eq] at hall
  obtain ⟨lo, hlo⟩ := Extended.isFinite_iff.mp hlow
  refine ⟨b, ?_, hall⟩
  unfold rank
  rw [hlo]
  simp only [hstep]
  split_ifs with hle
  · have hfirst : ¬ 0 < b := by
      rw [← hall 0, h.at?_zero, startBound, hlo]
      rintro ⟨u, hu, hlt⟩
      cases hu
      omega
    rw [show b = 0 by omega]
  · exact congrArg _ hb

/-- From a lower bound on, … -/
theorem roundUp_search_ascending (hlow : d.lower.isFinite = true) (hup : .fin v ≤ d.upper) :
    (∃ k w, d.ascending? k = some w ∧ v ≤ w ∧
        (∀ j u, d.ascending? j = some u → v ≤ u → w ≤ u) ∧ d.roundUp v = .ok w) ∨
      (∀ k u, d.ascending? k = some u → u < v) ∧ d.roundUp v = .error (.outOfRange v d.upper) := by
  obtain ⟨b, hrank, hall⟩ := h.exists_rank_boundary hstep hlow v
  have hbehind : ∀ {j u}, d.ascending? j = some u → v ≤ u → b ≤ j := by
    intro j u hu hvu
    by_contra hlt
    obtain ⟨u', hu', hlt'⟩ := (hall j).mpr (not_le.mp hlt)
    rw [hu, Option.some.injEq] at hu'
    omega
  unfold roundUp
  rw [if_neg (Extended.not_lt.mpr hup)]
  simp only [hstep, hlow, if_true, hrank, Except.ok_bind]
  cases hat : d.ascending? b with
  | some w =>
    have hvw : v ≤ w := not_lt.mp fun hlt => lt_irrefl b ((hall b).mp ⟨w, hat, hlt⟩)
    refine Or.inl ⟨b, w, hat, hvw, fun j u hu hvu => ?_, rfl⟩
    rcases (hbehind hu hvu).eq_or_lt with rfl | hlt
    · rw [hat, Option.some.injEq] at hu
      exact hu.le
    · obtain ⟨w', hw', hprec⟩ := h.advances .ascending hu hlt
      rw [show d.at? .ascending b = some w from hat, Option.some.injEq] at hw'
      exact hw' ▸ le_of_lt hprec
  | none =>
    refine Or.inr ⟨fun k u hu => not_le.mp fun hvu => ?_, rfl⟩
    rcases (hbehind hu hvu).eq_or_lt with rfl | hlt
    · rw [hat] at hu
      cases hu
    · obtain ⟨w', hw', -⟩ := h.advances .ascending hu hlt
      rw [show d.at? .ascending b = none from hat] at hw'
      cases hw'

/-- … and from an upper bound on, which is found to be large enough unless it is infinite. -/
theorem roundUp_search_descending (hlow : d.lower.isFinite = false) (hup : .fin v ≤ d.upper) :
    (∃ k w, d.descending? k = some w ∧ v ≤ w ∧
        (∀ j u, d.descending? j = some u → v ≤ u → w ≤ u) ∧ d.roundUp v = .ok w) ∨
      d.upper.isFinite = false ∧ (∀ k u, d.descending? k = some u → u < v) ∧
        d.roundUp v = .error .panic := by
  have hdown : ∀ {a c : Int}, Direction.descending.Precedes a c → decide (v ≤ c) = true →
      decide (v ≤ a) = true := by
    intro a c hac hc
    simp only [Direction.Precedes, decide_eq_true_eq] at *
    omega
  obtain ⟨b, hb, hall⟩ := h.exists_boundary hdown
  simp only [Option.any_eq_true, decide_eq_true_eq] at hall
  unfold roundUp
  rw [if_neg (Extended.not_lt.mpr hup)]
  simp only [hstep, hlow, Bool.false_eq_true, if_false]
  rw [show BoundarySearch.boundary d.size? (fun k => (d.descending? k).any (v ≤ ·)) = b from hb]
  cases b with
  | zero =>
    have hsmall : ∀ k u, d.descending? k = some u → u < v := fun k u hu =>
      not_le.mp fun hvu => absurd ((hall k).mp ⟨u, hu, hvu⟩) (Nat.not_lt_zero k)
    refine Or.inr ⟨Bool.eq_false_iff.mpr fun hfin => ?_, hsmall, rfl⟩
    -- the first position would hold a finite upper bound
    obtain ⟨u, hu⟩ := Extended.isFinite_iff.mp hfin
    have hlt := hsmall 0 u (by
      rw [descending?, h.at?_zero, Extended.finite?_eq_some_iff, startBound, hu])
    rw [hu, Extended.fin_le_fin] at hup
    omega
  | succ b =>
    obtain ⟨w, hat, hvw⟩ := (hall b).mpr (Nat.lt_succ_self b)
    replace hat : d.descending? b = some w := hat
    refine Or.inl ⟨b, w, hat, hvw, fun j u hu hvu => ?_, by simp only [hat]⟩
    have hj := (hall j).mp ⟨u, hu, hvu⟩
    rcases (Nat.le_of_lt_succ hj).eq_or_lt with rfl | hlt
    · rw [hat, Option.some.injEq] at hu
      exact hu.le
    · obtain ⟨u', hu', hprec⟩ := h.advances .descending hat hlt
      rw [show d.at? .descending j = some u from hu, Option.some.injEq] at hu'
      exact hu' ▸ le_of_lt hprec

/-- **Searching for the value to round to** finds the least one that is not smaller, among those that
can be looked up. -/
theorem roundUp_search (hup : .fin v ≤ d.upper) :
    (∃ k w, d.at? d.searchDirection k = some w ∧ v ≤ w ∧
        (∀ j u, d.at? d.searchDirection j = some u → v ≤ u → w ≤ u) ∧ d.roundUp v = .ok w) ∨
      (∀ k u, d.at? d.searchDirection k = some u → u < v) ∧
        (¬ d.Panics ∧ d.roundUp v = .error (.outOfRange v d.upper) ∨
          d.Panics ∧ d.roundUp v = .error .panic) := by
  unfold searchDirection
  split_ifs with hlow
  · have hnot : ¬ d.Panics := fun hd => by simp [hd.1] at hlow
    exact (h.roundUp_search_ascending hstep hlow hup).imp_right fun ⟨hsmall, hround⟩ =>
      ⟨hsmall, Or.inl ⟨hnot, hround⟩⟩
  · have hlow : d.lower.isFinite = false := by simpa using hlow
    exact (h.roundUp_search_descending hstep hlow hup).imp_right fun ⟨hinf, hsmall, hround⟩ =>
      ⟨hsmall, Or.inr ⟨h.panics_iff.mpr ⟨hstep, hlow, hinf⟩, hround⟩⟩

end Search

/-! ### Failures -/

/-- On a grid rounding up fails just when no value that can be written is large enough. -/
theorem roundUp_grid {s : Int} (hstep : d.step? = some s) (hv : Word.Fits v)
    (hup : .fin v ≤ d.upper) :
    (∃ w, d.Admits w ∧ v ≤ w ∧ d.roundUp v = .ok w) ∨
      (∀ w, d.Admits w → w < v) ∧ d.roundUp v = .error .overflow := by
  obtain ⟨c, hgrid⟩ := h.exists_onGrid hstep
  obtain ⟨w, hw, hround⟩ := hgrid.exists_roundUp hup
  rw [hround, checked_eq]
  by_cases hfits : Word.Fits w
  · exact Or.inl ⟨w, ⟨hw.1.1, hfits⟩, hw.1.2, if_pos hfits⟩
  · refine Or.inr ⟨fun u hu => not_le.mp fun hvu => hfits ?_, if_neg hfits⟩
    exact Word.fits_of_between hv hu.2 hw.1.2 (hw.2 ⟨hu.1, hvu⟩)

theorem not_panics_of_step? {s : Int} (hstep : d.step? = some s) : ¬ d.Panics := fun hd => by
  rw [(h.panics_iff.mp hd).1] at hstep
  cases hstep

/-- A run that panics would have to look up values from an infinite bound on. -/
theorem not_panics_of_at? {k : Nat} (hat : d.at? d.searchDirection k = some w) : ¬ d.Panics := by
  rintro ⟨hlow, hup, -⟩
  have hfin := h.isFinite_startBound_of_at? hat
  simp [searchDirection, startBound, hlow, hup] at hfin

/-- **The three outcomes** of rounding up a number that is not above the upper bound. -/
theorem roundUp_outcome (hv : Word.Fits v) (hup : .fin v ≤ d.upper) :
    (¬ d.Panics ∧ d.Reaches v ∧ ∃ w, d.roundUp v = .ok w) ∨
      (¬ d.Panics ∧ ¬ d.Reaches v ∧ d.roundUp v = .error (d.roundingFailure v)) ∨
        d.Panics ∧ d.roundUp v = .error .panic := by
  unfold Reaches roundingFailure
  cases hstep : d.step? with
  | some s =>
    have hnot := h.not_panics_of_step? hstep
    rcases h.roundUp_grid hstep hv hup with ⟨w, hw, hvw, hround⟩ | ⟨hsmall, hround⟩
    · exact Or.inl ⟨hnot, ⟨w, hw, hvw⟩, w, hround⟩
    · refine Or.inr (Or.inl ⟨hnot, ?_, hround⟩)
      rintro ⟨w, hw, hvw⟩
      exact not_lt.mpr hvw (hsmall w hw)
  | none =>
    rcases h.roundUp_search hstep hup with
      ⟨k, w, hat, hvw, -, hround⟩ | ⟨hsmall, ⟨hnot, hround⟩ | hpanics⟩
    · exact Or.inl ⟨h.not_panics_of_at? hat, ⟨k, w, hat, hvw⟩, w, hround⟩
    · refine Or.inr (Or.inl ⟨hnot, ?_, hround⟩)
      rintro ⟨k, w, hat, hvw⟩
      exact not_lt.mpr hvw (hsmall k w hat)
    · exact Or.inr (Or.inr hpanics)

/-- **The exact condition under which rounding up panics.** -/
theorem roundUp_eq_panic_iff (hv : Word.Fits v) : d.roundUp v = .error .panic ↔ d.Panics := by
  by_cases hup : .fin v ≤ d.upper
  · rcases h.roundUp_outcome hv hup with
      ⟨hnot, -, w, hround⟩ | ⟨hnot, -, hround⟩ | ⟨hd, hround⟩
    · exact iff_of_false (by simp [hround]) hnot
    · refine iff_of_false ?_ hnot
      rw [hround, Except.error.injEq]
      exact roundingFailure_ne_panic d v
    · exact iff_of_true hround hd
  · have hround : d.roundUp v = .error (.outOfRange v d.upper) := if_pos hup
    refine iff_of_false (by simp [hround]) fun hd => hup ?_
    rw [hd.2.1]
    exact Extended.le_posInf

/-- **The exact condition under which rounding up fails**, and with what. -/
theorem roundUp_eq_error_iff (hv : Word.Fits v) (hup : .fin v ≤ d.upper) (herr : err ≠ .panic) :
    d.roundUp v = .error err ↔ ¬ d.Panics ∧ ¬ d.Reaches v ∧ err = d.roundingFailure v := by
  rcases h.roundUp_outcome hv hup with
    ⟨-, hreach, w, hround⟩ | ⟨hnot, hreach, hround⟩ | ⟨hd, hround⟩
  · exact iff_of_false (by simp [hround]) fun hall => hall.2.1 hreach
  · rw [hround, Except.error.injEq, eq_comm, and_iff_right hnot, and_iff_right hreach]
  · refine iff_of_false ?_ fun hall => hall.1 hd
    rw [hround, Except.error.injEq]
    exact herr.symm

end Valid

theorem Enumeration.searchDirection_eq (h : d.Enumeration n g) : d.searchDirection = .ascending := by
  rw [searchDirection, h.lower_eq]
  rfl

/-- **A closed domain reaches every number up to its upper bound** if its last value can be looked
up. -/
theorem Enumeration.reaches (h : d.Enumeration n g) (hn : n ≤ 9223372036854775808)
    (hup : .fin v ≤ d.upper) : d.Reaches v := by
  have hpos := h.pos
  have hlast : n - 1 < n := by omega
  have hv : v ≤ g (n - 1) := by rwa [h.upper_eq, Extended.fin_le_fin] at hup
  unfold Reaches
  cases d.step? with
  | some s => exact ⟨g (n - 1), ⟨h.mem hlast, h.fits hlast⟩, hv⟩
  | none =>
    simp only [h.searchDirection_eq]
    exact ⟨n - 1, g (n - 1), h.ascending_iff.mpr ⟨hlast, h.lt_reach hlast (by omega), rfl⟩, hv⟩

end ThresholdEncoding.Domain
