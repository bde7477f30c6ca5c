import Mathlib.Data.Set.Card
import ThresholdEncoding.Proofs.Domain.Grid
import ThresholdEncoding.Proofs.Domain.Search

/-!
# What ranks, rounding and membership tests compute

In a closed domain whose values can all be addressed, and in every interval, the rank of a number is
the number of smaller values, rounding up gives the least value that is not smaller, and exactly the
values are contained. Rounding fails above the upper bound, or if its result is too large.

Closed domains are enumerated, and the enumeration is searched. An interval is a grid, and its answers
are computed by quotients and remainders.

* `SearchLaws`: what the three answers about a number mean.
* `Searchable.searchLaws`: they mean this for every number of the range.
-/

namespace ThresholdEncoding.Domain

variable {d : Domain} {n r : Nat} {g : Nat → Int} {s c lo u v w : Int}

/-- A valid domain in which every value can be found: an interval whose width as a grid fits, or a
closed domain that has no more values than there are positions in the range. -/
structure Searchable (d : Domain) : Prop extends d.Valid where
  findable : d.isInterval = true ∧ d.multiplier ≠ Word.least ∨
    d.isOpen = false ∧ ∃ n, d.size? = some n ∧ n ≤ 9223372036854775808

/-- What the rank of `v`, rounding `v` up and the test whether `v` is contained tell. -/
structure SearchLaws (d : Domain) (v : Int) : Prop where
  /-- Ranks need a lower bound. -/
  rank_eq_openBound : ¬ BddBelow {u | u ∈ d} → d.rank v = .error .openBound
  /-- The rank is the number of smaller values. -/
  exists_rank : BddBelow {u | u ∈ d} →
    ∃ k : Nat, d.rank v = .ok k ∧ {u | u ∈ d ∧ u < v}.encard = k
  /-- Only above the upper bound there is nothing to round to. -/
  roundUp_eq_outOfRange_iff : d.roundUp v = .error (.outOfRange v d.upper) ↔ d.upper < .fin v
  exists_least : .fin v ≤ d.upper → ∃ w, IsLeast {u | u ∈ d ∧ v ≤ u} w
  /-- The value to round to may be too large. -/
  roundUp_eq_overflow_iff : d.roundUp v = .error .overflow ↔
    .fin v ≤ d.upper ∧ ∃ w, IsLeast {u | u ∈ d ∧ v ≤ u} w ∧ Word.greatest < w
  /-- Otherwise it is what rounding gives. -/
  roundUp_eq_ok_iff : ∀ w,
    d.roundUp v = .ok w ↔ IsLeast {u | u ∈ d ∧ v ≤ u} w ∧ w ≤ Word.greatest
  /-- Exactly the values are contained. -/
  contains_iff : d.contains v = true ↔ v ∈ d

/-! ### Counting values -/

/-- A strictly increasing sequence has as many values as indices. -/
theorem encard_eq_of_strict {S : Set Int} (hg : ∀ {j k}, j < k → k < r → g j < g k)
    (hS : ∀ u, u ∈ S ↔ ∃ k < r, g k = u) : S.encard = r := by
  have himage : S = g '' (Finset.range r : Set Nat) := by
    ext u
    rw [hS, Set.mem_image]
    simp only [Finset.coe_range, Set.mem_Iio]
  have hinj : Set.InjOn g (Finset.range r : Set Nat) := by
    intro j hj k hk heq
    simp only [Finset.coe_range, Set.mem_Iio] at hj hk
    rcases lt_trichotomy j k with hlt | heq' | hgt
    · exact absurd heq (hg hlt hk).ne
    · exact heq'
    · exact absurd heq (hg hgt hj).ne'
  rw [himage, hinj.encard_image, Set.encard_coe_eq_coe_finsetCard, Finset.card_range]

namespace Enumeration

variable (h : d.Enumeration n g)
include h

theorem encard_below (hlt : ∀ k < n, (g k < v ↔ k < r)) (hr : r ≤ n) :
    {u | u ∈ d ∧ u < v}.encard = r := by
  refine encard_eq_of_strict (fun hjk hk => h.strict hjk (by omega)) fun u => ?_
  constructor
  · rintro ⟨hu, huv⟩
    obtain ⟨k, hk, rfl⟩ := h.mem_iff.mp hu
    exact ⟨k, (hlt k hk).mp huv, rfl⟩
  · rintro ⟨k, hk, rfl⟩
    exact ⟨h.mem (by omega), (hlt k (by omega)).mpr hk⟩

/-- On a grid the rank is a quotient, however many values there are. Where positions cannot count the
values, there are too many of them for the quotient to be cut off. -/
theorem rank_eq_of_step (hstep : d.step? = some s) (hv : Word.Fits v)
    (hlt : ∀ k < n, (g k < v ↔ k < r)) (hr : r ≤ n) : d.rank v = .ok r := by
  obtain ⟨hs, hgrid⟩ := h.step_eq hstep
  have hquot : ∀ k < n, (g k < v ↔ k < ((v - g 0 + s - 1) / s).toNat) :=
    fun k hk => lt_quotient_iff hs hgrid hk
  have hmin : ∀ k < n, (g k < v ↔ k < min ((v - g 0 + s - 1) / s).toNat n) := by
    intro k hk
    rw [hquot k hk]
    omega
  have hcut := BoundarySearch.eq_of_boundaries (min_le_right _ n) hr hmin hlt
  unfold rank
  rw [h.lower_eq]
  simp only [hstep]
  split_ifs with hle
  · have := hlt 0 h.pos
    rw [show r = 0 by omega]
  · cases hsize : d.size? with
    | some m =>
      obtain rfl := h.size_limit hsize
      simp only [hcut]
    | none =>
      have hn : 18446744073709551616 ≤ n := by
        by_contra hn
        have := h.size_eq (show n < Word.positionLimit by unfold Word.positionLimit; omega)
        rw [hsize] at this
        cases this
      have hquot_le : (v - g 0 + s - 1) / s ≤ v - g 0 :=
        Int.ediv_le_of_le_mul hs (by nlinarith)
      have h0 := h.fits h.pos
      rw [Word.fits_iff] at hv h0
      rw [← hcut, min_eq_left (by omega)]

/-- **Rounding up in a closed domain** gives the value at the rank, which is the least one that is not
smaller. -/
theorem exists_roundUp (hn : n ≤ 9223372036854775808) (hup : .fin v ≤ d.upper) :
    ∃ w, IsLeast {u | u ∈ d ∧ v ≤ u} w ∧ d.roundUp v = checked w := by
  have hpos := h.pos
  rw [h.upper_eq, Extended.fin_le_fin] at hup
  obtain ⟨r, -, hlt⟩ := h.exists_rank v
  have hrn : r < n := by
    have := hlt (n - 1) (by omega)
    omega
  have hround := h.roundsTo_rank hlt hrn
  refine ⟨g r, ⟨⟨h.mem hrn, hround.1⟩, ?_⟩, ?_⟩
  · rintro u ⟨hu, hvu⟩
    obtain ⟨k, hk, rfl⟩ := h.mem_iff.mp hu
    exact hround.2 _ hu (h.fits hk) hvu
  · rw [checked_of_fits (h.fits hrn)]
    exact h.roundUp_eq hlt hrn (hrn.trans_le (h.le_reach hn))

end Enumeration

namespace OnGrid

variable (h : d.OnGrid s c) (hlow : d.lower = .fin lo)
include h hlow

/-- The values below `v` are numbered from the lower bound on, up to a quotient. -/
theorem mem_below_iff (hup : .fin v ≤ d.upper) : w ∈ d ∧ w < v ↔
    ∃ k : Nat, k < ((v - lo + s - 1) / s).toNat ∧ lo + s * k = w := by
  have hquot : ∀ k : Nat, lo + s * k < v ↔ k < ((v - lo + s - 1) / s).toNat :=
    fun k => lt_quotient_iff h.pos
  constructor
  · rintro ⟨hw, hwv⟩
    obtain ⟨k, rfl⟩ := h.exists_index hlow hw
    exact ⟨k, (hquot k).mp hwv, rfl⟩
  · rintro ⟨k, hk, rfl⟩
    have hlt := (hquot k).mpr hk
    exact ⟨h.mem_of_index hlow (Extended.le_trans (Extended.fin_le_fin.mpr hlt.le) hup), hlt⟩

/-- **Ranks on a grid** whose values positions cannot count: the quotient is the number of smaller
points, all of which are values. -/
theorem exists_rank (hsize : d.size? = none) (hup : .fin v ≤ d.upper) :
    ∃ k : Nat, d.rank v = .ok k ∧ {u | u ∈ d ∧ u < v}.encard = k := by
  refine ⟨((v - lo + s - 1) / s).toNat, ?_, encard_eq_of_strict (fun {j k} hjk _ => ?_)
    fun u => h.mem_below_iff hlow hup⟩
  · unfold rank
    rw [hlow]
    simp only [h.step_eq, hsize]
    split_ifs with hle
    · have hfirst : lo + s * (0 : Nat) < v ↔ 0 < ((v - lo + s - 1) / s).toNat :=
        lt_quotient_iff h.pos
      simp only [Nat.cast_zero, mul_zero, add_zero] at hfirst
      rw [show ((v - lo + s - 1) / s).toNat = 0 by omega]
    · rfl
  · have : s * (j : Int) < s * k := mul_lt_mul_of_pos_left (by omega) h.pos
    omega

end OnGrid

/-! ### Values to round to -/

/-- A value is the least one that is not below it. -/
theorem isLeast_iff_mem : IsLeast {u | u ∈ d ∧ v ≤ u} v ↔ v ∈ d :=
  ⟨fun hv => hv.1.1, fun hv => ⟨⟨hv, le_refl v⟩, fun _ hu => hu.2⟩⟩

theorem le_iff_of_isLeast (hw : IsLeast {u | u ∈ d ∧ v ≤ u} w) (hu : u ∈ d) : w ≤ u ↔ v ≤ u :=
  ⟨fun hle => hw.1.2.trans hle, fun hle => hw.2 ⟨hu, hle⟩⟩

/-- Rounding moves the numbers that are not values. -/
theorem ne_iff_of_isLeast (hw : IsLeast {u | u ∈ d ∧ v ≤ u} w) : w ≠ v ↔ v ∉ d := by
  rw [not_iff_not]
  constructor
  · rintro rfl
    exact hw.1.1
  · exact fun hv => hw.unique (isLeast_iff_mem.mpr hv)

/-- Above the lower bound, numbers are rounded to values above it. -/
theorem Valid.bounds_of_isLeast (h : d.Valid) (hlow : ¬ .fin v ≤ d.lower)
    (hw : IsLeast {u | u ∈ d ∧ v ≤ u} w) : d.lower < .fin w ∧ .fin w ≤ d.upper :=
  ⟨fun hle => hlow (Extended.le_trans (Extended.fin_le_fin.mpr hw.1.2) hle), (h.between hw.1.1).2⟩

/-! ### Searchable domains -/

/-- The lower bound is infinite just when the values are not bounded below. -/
theorem Valid.bddBelow_iff (h : d.Valid) : BddBelow {u | u ∈ d} ↔ d.lower.isFinite = true := by
  have hstart := h.starts .ascending
  constructor
  · rintro ⟨b, hb⟩
    by_contra hinf
    obtain ⟨-, hall⟩ := hstart.eq_infinity (by simpa [startBound] using hinf)
    obtain ⟨u, hu, hlt⟩ := hall b
    have : b ≤ u := hb hu
    have : u < b := hlt
    omega
  · intro hfin
    obtain ⟨a, ha⟩ := Extended.isFinite_iff.mp hfin
    exact ⟨a, fun u hu => Extended.fin_le_fin.mp (ha ▸ (h.between hu).1)⟩

/-- A closed domain of moderate radius has few enough values. -/
theorem Valid.searchable_of_radius (h : d.Valid) (hc : d.isOpen = false)
    (hr : d.radius < 4611686018427387904) : d.Searchable := by
  obtain ⟨n, g, hg⟩ := h.exists_enumeration hc
  have hn : n ≤ 9223372036854775808 := (hg.lt_of_radius hr).le
  exact ⟨h, Or.inr ⟨hc, n, hg.size_eq_some hn, hn⟩⟩

namespace Searchable

variable (h : d.Searchable)
include h

omit h in
/-- An interval is a grid as wide as its multiplier. -/
theorem exists_onGrid_of_isInterval (hv : d.Valid) (hi : d.isInterval = true)
    (hm : d.multiplier ≠ Word.least) : ∃ s c, d.OnGrid s c := by
  have hfits : Word.Fits (d.multiplier.natAbs : Int) := by
    have := hv.fits
    unfold Word.least at hm
    rw [Word.fits_iff] at *
    omega
  obtain ⟨c, hc⟩ := hv.exists_onGrid
    ((step?_of_isInterval hi hv.fits).trans (Word.check?_of_fits hfits))
  exact ⟨_, c, hc⟩

/-- **Rounding up** to the upper bound finds the least value that is not smaller, or overflows if this
value is too large. -/
theorem exists_roundUp (hup : .fin v ≤ d.upper) :
    ∃ w, IsLeast {u | u ∈ d ∧ v ≤ u} w ∧ d.roundUp v = checked w := by
  rcases h.findable with ⟨hi, hm⟩ | ⟨hc, n, hsize, hn⟩
  · obtain ⟨s, c, hgrid⟩ := exists_onGrid_of_isInterval h.toValid hi hm
    exact hgrid.exists_roundUp hup
  · obtain ⟨m, g, hg⟩ := h.exists_enumeration hc
    obtain rfl := hg.size_limit hsize
    exact hg.exists_roundUp hn hup

/-- **Ranks** count the smaller values. -/
theorem exists_rank (hv : Word.Fits v) (hlow : d.lower.isFinite = true) :
    ∃ k : Nat, d.rank v = .ok k ∧ {u | u ∈ d ∧ u < v}.encard = k := by
  by_cases hc : d.isOpen = false
  · obtain ⟨n, g, hg⟩ := h.exists_enumeration hc
    obtain ⟨r, hr, hlt⟩ := hg.exists_rank v
    refine ⟨r, ?_, hg.encard_below hlt hr⟩
    rcases h.findable with ⟨hi, hm⟩ | ⟨-, m, hsize, hm⟩
    · obtain ⟨s, c, hgrid⟩ := exists_onGrid_of_isInterval h.toValid hi hm
      exact hg.rank_eq_of_step hgrid.step_eq hv hlt hr
    · obtain rfl := hg.size_limit hsize
      exact hg.rank_eq hm hlt hr
  · obtain ⟨hi, hm⟩ : d.isInterval = true ∧ d.multiplier ≠ Word.least :=
      h.findable.resolve_right fun hclosed => hc hclosed.1
    have ho : d.isOpen = true := by simpa using hc
    obtain ⟨s, c, hgrid⟩ := exists_onGrid_of_isInterval h.toValid hi hm
    obtain ⟨lo, hlo⟩ := Extended.isFinite_iff.mp hlow
    -- with a lower bound the interval is open above
    have hupper : d.upper = .posInf := by
      have hinf : d.upper.isFinite = false := by simpa [isOpen, hlow] using ho
      exact ((h.starts .descending).eq_infinity hinf).1
    have hle : .fin v ≤ d.upper := by
      rw [hupper]
      exact Extended.le_posInf
    exact hgrid.exists_rank hlo (size?_of_isOpen h.toValid hi ho) hle

omit h in
theorem rank_eq_openBound (hlow : d.lower.isFinite = false) : d.rank v = .error .openBound := by
  unfold rank
  split
  · next lo hlo => simp [hlo] at hlow
  · rfl

/-- The three outcomes of rounding up. -/
theorem roundUp_cases (hv : Word.Fits v) :
    (d.upper < .fin v ∧ d.roundUp v = .error (.outOfRange v d.upper)) ∨
      ∃ w, .fin v ≤ d.upper ∧ IsLeast {u | u ∈ d ∧ v ≤ u} w ∧
        (w ≤ Word.greatest ∧ d.roundUp v = .ok w ∨
          Word.greatest < w ∧ d.roundUp v = .error .overflow) := by
  by_cases hup : .fin v ≤ d.upper
  · obtain ⟨w, hw, hround⟩ := h.exists_roundUp hup
    have hvw : v ≤ w := hw.1.2
    have hleast := hv.1
    refine Or.inr ⟨w, hup, hw, ?_⟩
    rw [hround, checked_eq]
    by_cases hle : w ≤ Word.greatest
    · exact Or.inl ⟨hle, if_pos ⟨by omega, hle⟩⟩
    · exact Or.inr ⟨not_le.mp hle, if_neg fun hfits => hle hfits.2⟩
  · exact Or.inl ⟨hup, if_pos hup⟩

/-- Above the upper bound there is no value. -/
theorem not_isLeast_of_lt (hlt : d.upper < .fin v) : ¬ IsLeast {u | u ∈ d ∧ v ≤ u} w := fun hw =>
  absurd hw.1.2 (not_le.mpr (h.upper_lt_iff.mp hlt w hw.1.1))

theorem roundUp_eq_ok_iff (hv : Word.Fits v) :
    d.roundUp v = .ok w ↔ IsLeast {u | u ∈ d ∧ v ≤ u} w ∧ w ≤ Word.greatest := by
  rcases h.roundUp_cases hv with ⟨hlt, hround⟩ | ⟨w', hup, hw', ⟨hle, hround⟩ | ⟨hlt, hround⟩⟩
  · rw [hround]
    exact iff_of_false (by simp) fun hw => h.not_isLeast_of_lt hlt hw.1
  · rw [hround, Except.ok.injEq]
    constructor
    · rintro rfl; exact ⟨hw', hle⟩
    · exact fun hw => hw'.unique hw.1
  · rw [hround]
    refine iff_of_false (by simp) fun hw => ?_
    rw [hw.1.unique hw'] at hw
    omega

theorem roundUp_eq_overflow_iff (hv : Word.Fits v) : d.roundUp v = .error .overflow ↔
    .fin v ≤ d.upper ∧ ∃ w, IsLeast {u | u ∈ d ∧ v ≤ u} w ∧ Word.greatest < w := by
  rcases h.roundUp_cases hv with ⟨hlt, hround⟩ | ⟨w', hup, hw', ⟨hle, hround⟩ | ⟨hlt, hround⟩⟩
  · rw [hround]
    exact iff_of_false (by simp) fun hw => hlt hw.1
  · rw [hround]
    refine iff_of_false (by simp) ?_
    rintro ⟨-, w, hw, hlt⟩
    rw [hw.unique hw'] at hlt
    omega
  · exact iff_of_true hround ⟨hup, w', hw', hlt⟩

theorem roundUp_eq_outOfRange_iff (hv : Word.Fits v) :
    d.roundUp v = .error (.outOfRange v d.upper) ↔ d.upper < .fin v := by
  rcases h.roundUp_cases hv with ⟨hlt, hround⟩ | ⟨w', hup, -, ⟨-, hround⟩ | ⟨-, hround⟩⟩
  · exact iff_of_true hround hlt
  · exact iff_of_false (by simp [hround]) (Extended.not_lt.mpr hup)
  · exact iff_of_false (by simp [hround]) (Extended.not_lt.mpr hup)

/-- **Ranks, rounding and membership tests are exact** for every number of the range. -/
theorem searchLaws (hv : Word.Fits v) : d.SearchLaws v where
  rank_eq_openBound hnot := rank_eq_openBound (by simpa [h.bddBelow_iff] using hnot)
  exists_rank hb := h.exists_rank hv (h.bddBelow_iff.mp hb)
  roundUp_eq_outOfRange_iff := h.roundUp_eq_outOfRange_iff hv
  exists_least hup := by
    obtain ⟨w, hw, -⟩ := h.exists_roundUp hup
    exact ⟨w, hw⟩
  roundUp_eq_overflow_iff := h.roundUp_eq_overflow_iff hv
  roundUp_eq_ok_iff _ := h.roundUp_eq_ok_iff hv
  contains_iff := by
    rw [contains_iff, h.roundUp_eq_ok_iff hv, isLeast_iff_mem]
    exact and_iff_left hv.2

end Searchable

/-- The multiples of `3` from `-3` on. -/
def triples : Domain := { shape := .interval (.fin (-1)) .posInf, multiplier := 3 }

/-- Three of them are below `4`, and `6` is the least of the others. Above the greatest number of the
range there are values as well. -/
theorem searchLaws_triples : IsLeast {u | u ∈ triples ∧ 4 ≤ u} 6 ∧
    {u | u ∈ triples ∧ u < 4}.encard = 3 ∧
    ∃ w, IsLeast {u | u ∈ triples ∧ Word.greatest ≤ u} w ∧ Word.greatest < w := by
  have h : triples.Searchable := ⟨by decide, Or.inl (by decide)⟩
  have hfour := h.searchLaws (v := 4) (by decide)
  have hgreatest := h.searchLaws (v := Word.greatest) (by decide)
  obtain ⟨k, hk, hcard⟩ := hfour.exists_rank (h.bddBelow_iff.mpr rfl)
  obtain rfl : 3 = k := Except.ok.inj hk
  obtain ⟨hsix, -⟩ := (hfour.roundUp_eq_ok_iff 6).mp rfl
  obtain ⟨-, hlarge⟩ := hgreatest.roundUp_eq_overflow_iff.mp rfl
  exact ⟨hsix, hcard, hlarge⟩

end ThresholdEncoding.Domain
