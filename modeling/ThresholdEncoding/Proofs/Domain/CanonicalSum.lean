import Mathlib.Order.Interval.Finset.Basic
import ThresholdEncoding.Proofs.Domain.Addition

/-!
# Exact sums in canonical form

Two closed unit intervals, and closed domains with few pairs of values, are added without an
approximation: the values of the answer are exactly the sums of a value of each domain. The form of
the answer tells whether the sums have gaps: without gaps it is an interval, else a list. The test for
gaps compares the number of sums with the distance of the least and the greatest of them.

* `ordConnected_iff`: the test for gaps.
* `Represents`: a domain has the values of a set, in the form that the set decides.
* `Valid.add_represents`: small sums.
-/

namespace ThresholdEncoding.Domain

open Extended (exactSum)

variable {a b c : Domain} {l : List Int} {v : Int}

/-- A domain with exactly the values of a set and without a factor, whose form tells whether the set
has gaps. -/
structure Represents (c : Domain) (S : Set Int) : Prop where
  mem_iff : ∀ v, v ∈ c ↔ v ∈ S
  multiplier_eq : c.multiplier = 1
  interval_of_ordConnected : S.OrdConnected → ∃ lo hi, c.shape = .interval lo hi
  listed_of_not_ordConnected : ¬ S.OrdConnected → ∃ l, c.shape = .listed l

/-- The sums of a value of each domain. -/
def sumSet (a b : Domain) : Set Int := Set.image2 (· + ·) {x | x ∈ a} {y | y ∈ b}

/-! ### Gaps -/

/-- **The test for gaps**: increasing values have none just when there are more of them than the last
one is away from the first one. -/
theorem ordConnected_iff (hl : l ≠ []) (hinc : l.Pairwise (· < ·)) :
    {v | v ∈ l}.OrdConnected ↔ (l.getLast hl - l.head hl).natAbs < l.length := by
  have hset : {v | v ∈ l} = (l.toFinset : Set Int) := by
    ext v
    simp
  have hcard : l.toFinset.card = l.length := List.toFinset_card_of_nodup (hinc.imp ne_of_lt)
  have hspan : (Finset.Icc (l.head hl) (l.getLast hl)).card = (l.getLast hl + 1 - l.head hl).toNat :=
    Int.card_Icc _ _
  have hsub : l.toFinset ⊆ Finset.Icc (l.head hl) (l.getLast hl) := by
    intro v hv
    rw [List.mem_toFinset] at hv
    exact Finset.mem_Icc.mpr (between_of_increasing hl hinc hv)
  have hle := (between_of_increasing hl hinc (List.getLast_mem hl)).1
  constructor
  · intro h
    have hsup : Finset.Icc (l.head hl) (l.getLast hl) ⊆ l.toFinset := by
      intro v hv
      rw [List.mem_toFinset]
      exact h.out (List.head_mem hl) (List.getLast_mem hl) (Finset.mem_Icc.mp hv)
    have := Finset.card_le_card hsup
    omega
  · intro hlt
    rw [hset, Finset.eq_of_subset_of_card_le hsub (by omega), Finset.coe_Icc]
    exact Set.ordConnected_Icc

/-- **Increasing values are represented** as an interval if they have no gaps, and as a list
otherwise. -/
theorem represents_ofIncreasing (hl : l ≠ []) (hinc : l.Pairwise (· < ·)) :
    (ofIncreasing l).Represents {v | v ∈ l} := by
  have hgap := ordConnected_iff hl hinc
  rw [ofIncreasing_eq hl]
  split_ifs with hlt
  · refine ⟨fun v => ?_, rfl, fun _ => ⟨_, _, rfl⟩, fun hnot => absurd (hgap.mpr hlt) hnot⟩
    rw [mem_interval_iff, Extended.fin_le_fin, Extended.fin_le_fin]
    have hout := (hgap.mpr hlt).out (List.head_mem hl) (List.getLast_mem hl)
    exact ⟨fun hv => hout hv, between_of_increasing hl hinc⟩
  · exact ⟨fun v => mem_ofList, rfl, fun hconn => absurd (hgap.mp hconn) hlt, fun _ => ⟨_, rfl⟩⟩

/-! ### Sums -/

namespace Valid

variable (ha : a.Valid) (hb : b.Valid)

include ha in
/-- The values of a unit interval are all integers between the bounds. -/
theorem mem_iff_of_isUnitInterval (hu : a.isUnitInterval = true) :
    v ∈ a ↔ a.lower ≤ .fin v ∧ .fin v ≤ a.upper := by
  simp only [isUnitInterval, Bool.and_eq_true, decide_eq_true_eq] at hu
  have hstep : a.step? = some 1 := by
    rw [step?_of_isInterval hu.1 ha.fits, hu.2]
    rfl
  obtain ⟨c, hgrid⟩ := ha.exists_onGrid hstep
  rw [hgrid.mem_iff]
  exact and_iff_right (one_dvd _)

include ha hb
variable (hca : a.isOpen = false) (hcb : b.isOpen = false)
include hca hcb

/-- The sums of two closed unit intervals are all integers between the sums of the bounds. -/
theorem sumSet_of_isUnitInterval (hua : a.isUnitInterval = true) (hub : b.isUnitInterval = true) :
    ∃ p q p' q', a.lower = .fin p ∧ a.upper = .fin q ∧ b.lower = .fin p' ∧ b.upper = .fin q' ∧
      a.sumSet b = Set.Icc (p + p') (q + q') := by
  obtain ⟨m, f, hf⟩ := ha.exists_enumeration hca
  obtain ⟨n, g, hg⟩ := hb.exists_enumeration hcb
  have hpq := hf.mono (Nat.zero_le (m - 1)) (Nat.sub_one_lt_of_lt hf.pos)
  have hpq' := hg.mono (Nat.zero_le (n - 1)) (Nat.sub_one_lt_of_lt hg.pos)
  refine ⟨_, _, _, _, hf.lower_eq, hf.upper_eq, hg.lower_eq, hg.upper_eq, ?_⟩
  have hmem : ∀ x, x ∈ a ↔ f 0 ≤ x ∧ x ≤ f (m - 1) := by
    intro x
    rw [ha.mem_iff_of_isUnitInterval hua, hf.lower_eq, hf.upper_eq, Extended.fin_le_fin,
      Extended.fin_le_fin]
  have hmem' : ∀ y, y ∈ b ↔ g 0 ≤ y ∧ y ≤ g (n - 1) := by
    intro y
    rw [hb.mem_iff_of_isUnitInterval hub, hg.lower_eq, hg.upper_eq, Extended.fin_le_fin,
      Extended.fin_le_fin]
  ext v
  rw [sumSet, Set.mem_image2, Set.mem_Icc]
  constructor
  · rintro ⟨x, hx, y, hy, rfl⟩
    have hx := (hmem x).mp hx
    have hy := (hmem' y).mp hy
    omega
  · rintro ⟨hlow, hup⟩
    -- the first summand is as small as the second one allows
    refine ⟨max (f 0) (v - g (n - 1)), (hmem _).mpr ?_, v - max (f 0) (v - g (n - 1)),
      (hmem' _).mpr ?_, by omega⟩
    · omega
    · omega

/-- **Two closed unit intervals**, of whatever size, have an interval of sums. -/
theorem represents_interval (hua : a.isUnitInterval = true) (hub : b.isUnitInterval = true) :
    (Domain.interval (exactSum a.lower b.lower) (exactSum a.upper b.upper)).Represents
      (a.sumSet b) := by
  obtain ⟨p, q, p', q', hp, hq, hp', hq', hset⟩ :=
    ha.sumSet_of_isUnitInterval hb hca hcb hua hub
  rw [hset, hp, hp', hq, hq', Extended.exactSum_fin, Extended.exactSum_fin]
  refine ⟨fun v => ?_, rfl, fun _ => ⟨_, _, rfl⟩, fun hnot => absurd Set.ordConnected_Icc hnot⟩
  rw [mem_interval_iff, Extended.fin_le_fin, Extended.fin_le_fin, Set.mem_Icc]

/-- **Closed domains with few pairs of values** have their list of sums. -/
theorem represents_ofIncreasing_sums (hpairs : a.pairs b ≤ pairLimit) :
    (Domain.ofIncreasing (a.sums b)).Represents (a.sumSet b) := by
  have hset : {v | v ∈ a.sums b} = a.sumSet b := by
    ext v
    exact mem_sums_iff ha hb hca hcb hpairs
  have hne : a.sums b ≠ [] := by
    obtain ⟨m, f, hf⟩ := ha.exists_enumeration hca
    obtain ⟨n, g, hg⟩ := hb.exists_enumeration hcb
    exact List.ne_nil_of_mem ((mem_sums_iff ha hb hca hcb hpairs).mpr
      ⟨_, hf.mem hf.pos, _, hg.mem hg.pos, rfl⟩)
  rw [← hset]
  exact represents_ofIncreasing hne (pairwise_lt_sorted _)

/-- **Small sums are exact and canonical.** Whether two closed domains are unit intervals of any size
or have few pairs of values, the sum has exactly the values it should have, as an interval if they
have no gaps and as a list otherwise. -/
theorem add_represents (hsmall : a.isUnitInterval = true ∧ b.isUnitInterval = true ∨
      ∃ m n, a.size? = some m ∧ b.size? = some n ∧ m * n ≤ pairLimit)
    (hc : a.add b = .ok c) : c.Represents (a.sumSet b) := by
  have hda : a.isOpenOther = false := isOpenOther_eq_false_iff.mpr (Or.inl hca)
  have hdb : b.isOpenOther = false := isOpenOther_eq_false_iff.mpr (Or.inl hcb)
  have hfits : (exactSum a.lower b.lower).Fits ∧ (exactSum a.upper b.upper).Fits := by
    by_contra hnot
    rw [add_of_not_fits hda hdb (not_and_or.mp hnot)] at hc
    cases hc
  rw [add_of_fits hda hdb hfits.1 hfits.2, Except.ok.injEq] at hc
  subst hc
  by_cases hunit : a.isUnitInterval = true ∧ b.isUnitInterval = true
  · rw [if_pos (Or.inl (by simp [boundsSuffice, hunit]))]
    exact ha.represents_interval hb hca hcb hunit.1 hunit.2
  · have hpairs : a.pairs b ≤ pairLimit := by
      obtain ⟨m, n, hm, hn, hmn⟩ := hsmall.resolve_left fun h => hunit ⟨h.1, h.2⟩
      unfold pairs
      simp only [hm, hn]
      exact (min_le_left _ _).trans hmn
    have hsuffice : a.boundsSuffice b = false := by
      simpa [boundsSuffice, hca, hcb] using hunit
    rw [if_neg (by simp [hsuffice, hpairs])]
    exact ha.represents_ofIncreasing_sums hb hca hcb hpairs

end Valid

/-- Two values with a gap. -/
def twins : Domain := { shape := .listed [0, 2] }

/-- The numbers `-1` and `0`, as multiples of `-1`. -/
def mirrored : Domain := { shape := .interval (.fin 0) (.fin 1), multiplier := -1 }

/-- The sums of values with gaps are listed, those of unit intervals are an interval. -/
theorem add_represents_small :
    (twins.add twins = .ok { shape := .listed [0, 2, 4] } ∧
      ({ shape := .listed [0, 2, 4] } : Domain).Represents (twins.sumSet twins)) ∧
    (mirrored.add (Domain.interval (.fin 0) (.fin 3)) =
        .ok (Domain.interval (.fin (-1)) (.fin 3)) ∧
      (Domain.interval (.fin (-1)) (.fin 3)).Represents
        (mirrored.sumSet (Domain.interval (.fin 0) (.fin 3)))) := by
  have htwins : twins.Valid := by decide
  have hmirrored : mirrored.Valid := by decide
  have hunit : (Domain.interval (.fin 0) (.fin 3)).Valid := by decide
  have hlist : twins.add twins = .ok { shape := .listed [0, 2, 4] } := by cbv
  have hinterval : mirrored.add (Domain.interval (.fin 0) (.fin 3)) =
    .ok (Domain.interval (.fin (-1)) (.fin 3)) := rfl
  exact ⟨⟨hlist, htwins.add_represents htwins rfl rfl (Or.inr ⟨2, 2, rfl, rfl, by decide⟩) hlist⟩,
    hinterval, hmirrored.add_represents hunit rfl rfl (Or.inl ⟨rfl, rfl⟩) hinterval⟩

end ThresholdEncoding.Domain
