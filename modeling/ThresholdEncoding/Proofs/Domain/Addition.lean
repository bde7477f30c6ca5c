import ThresholdEncoding.Proofs.Domain.Search
import ThresholdEncoding.Proofs.Domain.Sum

/-!
# The contract of adding domains

`Domain.add` answers in three ways: with the interval between the sums of the bounds, with all sums,
or with that interval as an approximation. All three answers keep one contract. The sum is refused
only for the documented reasons, its bounds are the exact sums of the bounds, it contains every sum
that is a number of the range, and it does not depend on the order of the summands.

* `Extended.exactSum`: sums of bounds without saturation.
* `add_of_isOpenOther`, `add_of_not_fits`, `add_of_fits`: the three outcomes of `add`.
* `Domain.SumLaws`, `Valid.sumLaws_add`: the contract.
-/

namespace ThresholdEncoding

/-! ### Exact sums of bounds -/

namespace Extended

variable {x y z : Extended}

/-- The sum without saturation; infinities absorb. Two bounds on the same side are never opposite
infinities. -/
def exactSum : Extended → Extended → Extended
  | fin m, fin n => fin (m + n)
  | fin _, y => y
  | x, _ => x

@[simp] theorem exactSum_fin {m n : Int} : exactSum (fin m) (fin n) = fin (m + n) := rfl

theorem add?_eq_some_iff : x.add? y = some z ↔ (exactSum x y).Fits ∧ exactSum x y = z := by
  cases x with
  | fin m =>
    cases y with
    | fin n =>
      rw [add?_fin_eq_some_iff, exactSum_fin, fits_fin_iff, and_comm]
      exact and_congr_right fun _ => eq_comm
    | negInf => exact ⟨fun h => ⟨trivial, Option.some.inj h⟩, fun h => congrArg some h.2⟩
    | posInf => exact ⟨fun h => ⟨trivial, Option.some.inj h⟩, fun h => congrArg some h.2⟩
  | negInf => exact ⟨fun h => ⟨trivial, Option.some.inj h⟩, fun h => congrArg some h.2⟩
  | posInf => exact ⟨fun h => ⟨trivial, Option.some.inj h⟩, fun h => congrArg some h.2⟩

theorem exactSum_comm_of_ne_posInf (hx : x ≠ posInf) (hy : y ≠ posInf) :
    exactSum x y = exactSum y x := by
  cases x <;> cases y <;> simp_all [exactSum, add_comm]

theorem exactSum_comm_of_ne_negInf (hx : x ≠ negInf) (hy : y ≠ negInf) :
    exactSum x y = exactSum y x := by
  cases x <;> cases y <;> simp_all [exactSum, add_comm]

end Extended

open Extended (exactSum)

namespace Domain

variable {a b c d : Domain} {lo hi : Extended} {l : List Int} {v : Int}

/-! ### Finding values of the answers -/

theorem lower_interval (h : lo.Fits) : (Domain.interval lo hi).lower = lo := by
  cases lo with
  | fin n => exact Extended.scale_fin_of_fits (f := 1) (by rwa [mul_one]) |>.trans (by rw [mul_one])
  | negInf => rfl
  | posInf => rfl

theorem upper_interval (h : hi.Fits) : (Domain.interval lo hi).upper = hi := by
  cases hi with
  | fin n => exact Extended.scale_fin_of_fits (f := 1) (by rwa [mul_one]) |>.trans (by rw [mul_one])
  | negInf => rfl
  | posInf => rfl

/-- An interval contains its integers, whether its ends are finite or not. -/
theorem contains_interval (hlo : lo.Fits) (hhi : hi.Fits) (h1 : lo ≤ .fin v) (h2 : .fin v ≤ hi)
    (hv : Word.Fits v) : (Domain.interval lo hi).contains v = true := by
  have hstep : (Domain.interval lo hi).step? = some 1 := by
    rw [step?_of_isInterval rfl (show Word.Fits 1 by decide)]
    rfl
  have hround : (Domain.interval lo hi).roundUp v = .ok v := by
    unfold roundUp
    rw [upper_interval hhi, lower_interval hlo, if_neg (Extended.not_lt.mpr h2), hstep]
    show roundUpOnGrid lo hi 1 v = .ok v
    unfold roundUpOnGrid
    split
    · next n =>
      rw [Extended.fin_le_fin] at h1
      split_ifs with hle
      · rw [show n = v by omega]
      · rw [Int.emod_one, add_zero, checked_of_fits hv]
    · rw [Int.emod_one, add_zero, checked_of_fits hv]
    · rw [Int.emod_one, add_zero, checked_of_fits hv]
  unfold contains
  rw [hround]
  simp

section Increasing
variable (hl : l ≠ []) (hinc : l.Pairwise (· < ·)) (hfits : ∀ v ∈ l, Word.Fits v)
include hl hinc hfits

omit hinc in
theorem contains_ofList (hv : v ∈ l) : (ofList l).contains v = true := by
  obtain ⟨n, g, hg⟩ := (Valid.ofList hl hfits).exists_enumeration (isOpen_ofList hl hfits)
  have hsize : (ofList l).size? = some (ofList l).shape.reach := rfl
  exact hg.contains_of_mem (hg.size_limit hsize).ge (mem_ofList.mpr hv)

theorem contains_ofIncreasing (hv : v ∈ l) : (Domain.ofIncreasing l).contains v = true := by
  rcases ofIncreasing_cases hl hinc with h | ⟨m, hm, n, hn, hmn, h⟩
  · rw [h]; exact contains_ofList hl hfits hv
  · rw [h]
    exact contains_interval (hfits m hm) (hfits n hn) (hmn v hv).1 (hmn v hv).2 (hfits v hv)

/-- The bounds of increasing values are the least and the greatest of them. -/
theorem bounds_ofIncreasing : ∃ m ∈ l, ∃ n ∈ l, (∀ v ∈ l, m ≤ v ∧ v ≤ n) ∧
    (Domain.ofIncreasing l).lower = .fin m ∧ (Domain.ofIncreasing l).upper = .fin n := by
  rcases ofIncreasing_cases hl hinc with h | ⟨m, hm, n, hn, hmn, h⟩
  · obtain ⟨k, g, hg⟩ := (Valid.ofList hl hfits).exists_enumeration (isOpen_ofList hl hfits)
    have hpos := hg.pos
    refine ⟨g 0, mem_ofList.mp (hg.mem hpos), g (k - 1), mem_ofList.mp (hg.mem (by omega)),
      fun v hv => ?_, ?_, ?_⟩
    · have := mem_ofList.mpr hv
      exact ⟨hg.le_of_mem this, hg.ge_of_mem this⟩
    · rw [h, hg.lower_eq]
    · rw [h, hg.upper_eq]
  · have h1 : (Extended.fin m).Fits := hfits m hm
    have h2 : (Extended.fin n).Fits := hfits n hn
    exact ⟨m, hm, n, hn, hmn, by rw [h, lower_interval h1], by rw [h, upper_interval h2]⟩

end Increasing

/-! ### The outcomes of `add` -/

theorem isOpenOther_eq_true_iff : d.isOpenOther = true ↔ d.isOpen = true ∧ d.isInterval = false := by
  simp [isOpenOther]

theorem isOpenOther_eq_false_iff :
    d.isOpenOther = false ↔ d.isOpen = false ∨ d.isInterval = true := by
  unfold isOpenOther
  cases d.isOpen <;> simp

theorem add_of_isOpenOther (h : a.isOpenOther = true ∨ b.isOpenOther = true) :
    a.add b = .error .unsupportedMerge := by
  unfold add
  rw [if_pos (by rwa [Bool.or_eq_true])]

section Outcomes
variable (ha : a.isOpenOther = false) (hb : b.isOpenOther = false)
include ha hb

theorem add_of_not_fits
    (h : ¬ (exactSum a.lower b.lower).Fits ∨ ¬ (exactSum a.upper b.upper).Fits) :
    a.add b = .error .overflow := by
  have hbounds : a.addBounds b = .error .overflow := by
    unfold addBounds
    split
    · next lo hi hlo hhi =>
      rcases h with h | h
      · exact absurd (Extended.add?_eq_some_iff.mp hlo).1 h
      · exact absurd (Extended.add?_eq_some_iff.mp hhi).1 h
    · rfl
  unfold add
  rw [if_neg (by simp [ha, hb]), hbounds]
  rfl

theorem add_of_fits (h1 : (exactSum a.lower b.lower).Fits)
    (h2 : (exactSum a.upper b.upper).Fits) :
    a.add b = .ok (if a.boundsSuffice b = true ∨ pairLimit < a.pairs b
      then Domain.interval (exactSum a.lower b.lower) (exactSum a.upper b.upper)
      else Domain.ofIncreasing (a.sums b)) := by
  have hbounds : a.addBounds b =
      .ok (Domain.interval (exactSum a.lower b.lower) (exactSum a.upper b.upper)) := by
    unfold addBounds
    rw [Extended.add?_eq_some_iff.mpr ⟨h1, rfl⟩, Extended.add?_eq_some_iff.mpr ⟨h2, rfl⟩]
  unfold add
  rw [if_neg (by simp [ha, hb]), hbounds, Except.ok_bind]
  simp only [Bool.or_eq_true, decide_eq_true_eq]
  split_ifs <;> rfl

end Outcomes

/-! ### The order of the summands -/

theorem pairs_comm (a b : Domain) : a.pairs b = b.pairs a := by
  unfold pairs
  cases a.size? <;> cases b.size? <;> simp only [Nat.mul_comm]

theorem boundsSuffice_comm (a b : Domain) : a.boundsSuffice b = b.boundsSuffice a := by
  unfold boundsSuffice
  rw [Bool.or_comm a.isOpen, Bool.and_comm a.isUnitInterval]

/-- Sums come in order, whichever summand is run through first. -/
theorem sums_comm (a b : Domain) : a.sums b = b.sums a := by
  refine eq_of_pairwise_lt (pairwise_lt_sorted _) (pairwise_lt_sorted _) fun v => ?_
  simp only [sums, mem_sorted, List.mem_flatMap, List.mem_map]
  constructor
  · rintro ⟨x, hx, y, hy, rfl⟩; exact ⟨y, hy, x, hx, add_comm _ _⟩
  · rintro ⟨y, hy, x, hx, rfl⟩; exact ⟨x, hx, y, hy, add_comm _ _⟩

/-! ### The contract -/

/-- What is promised about the sum of two domains. -/
structure SumLaws (a b : Domain) : Prop where
  /-- A sum is not supported just when a summand is open but no interval. -/
  unsupported_iff : a.add b = .error .unsupportedMerge ↔
    (a.isOpen = true ∧ a.isInterval = false) ∨ (b.isOpen = true ∧ b.isInterval = false)
  /-- A supported sum overflows just when the finite sum of two bounds does not fit. -/
  overflow_iff : (a.isOpen = false ∨ a.isInterval = true) →
    (b.isOpen = false ∨ b.isInterval = true) → (a.add b = .error .overflow ↔
      ¬ (exactSum a.lower b.lower).Fits ∨ ¬ (exactSum a.upper b.upper).Fits)
  /-- In all other cases there is a valid sum with the exact sums of the bounds that contains every
  sum that fits. -/
  exists_sum : (a.isOpen = false ∨ a.isInterval = true) →
    (b.isOpen = false ∨ b.isInterval = true) → (exactSum a.lower b.lower).Fits →
    (exactSum a.upper b.upper).Fits → ∃ c, a.add b = .ok c ∧ c.Valid ∧
      c.lower = exactSum a.lower b.lower ∧ c.upper = exactSum a.upper b.upper ∧
      ∀ x ∈ a, ∀ y ∈ b, Word.Fits (x + y) → c.contains (x + y) = true
  /-- The order of the summands does not matter, not even for failures. -/
  comm : a.add b = b.add a

namespace Valid

variable (ha : a.Valid) (hb : b.Valid)
include ha hb

/-- The sums of few pairs of values have the exact sums of the bounds as bounds, and are all
found. -/
theorem ofIncreasing_sums (hca : a.isOpen = false) (hcb : b.isOpen = false)
    (hpairs : a.pairs b ≤ pairLimit) (hfits : ∀ v ∈ a.sums b, Word.Fits v) :
    (Domain.ofIncreasing (a.sums b)).lower = exactSum a.lower b.lower ∧
      (Domain.ofIncreasing (a.sums b)).upper = exactSum a.upper b.upper ∧
      ∀ x ∈ a, ∀ y ∈ b, (Domain.ofIncreasing (a.sums b)).contains (x + y) = true := by
  have hmem := fun {v} => mem_sums_iff (v := v) ha hb hca hcb hpairs
  obtain ⟨m, f, hf⟩ := ha.exists_enumeration hca
  obtain ⟨n, g, hg⟩ := hb.exists_enumeration hcb
  have hm := hf.pos
  have hn := hg.pos
  have hfirst : f 0 + g 0 ∈ a.sums b := hmem.mpr ⟨_, hf.mem hm, _, hg.mem hn, rfl⟩
  have hlast : f (m - 1) + g (n - 1) ∈ a.sums b :=
    hmem.mpr ⟨_, hf.mem (by omega), _, hg.mem (by omega), rfl⟩
  have hne := List.ne_nil_of_mem hfirst
  have hinc : (a.sums b).Pairwise (· < ·) := pairwise_lt_sorted _
  obtain ⟨p, hp, q, hq, hpq, hlow, hup⟩ := bounds_ofIncreasing hne hinc hfits
  refine ⟨?_, ?_, fun x hx y hy =>
    contains_ofIncreasing hne hinc hfits (hmem.mpr ⟨x, hx, y, hy, rfl⟩)⟩
  · obtain ⟨x, hx, y, hy, rfl⟩ := hmem.mp hp
    have h1 := (hpq _ hfirst).1
    have h2 := hf.le_of_mem hx
    have h3 := hg.le_of_mem hy
    rw [hlow, hf.lower_eq, hg.lower_eq, Extended.exactSum_fin, Extended.fin.injEq]
    omega
  · obtain ⟨x, hx, y, hy, rfl⟩ := hmem.mp hq
    have h1 := (hpq _ hlast).2
    have h2 := hf.ge_of_mem hx
    have h3 := hg.ge_of_mem hy
    rw [hup, hf.upper_eq, hg.upper_eq, Extended.exactSum_fin, Extended.fin.injEq]
    omega

/-- Where a sum is supported and fits, it keeps the contract. -/
theorem exists_add (hda : a.isOpenOther = false) (hdb : b.isOpenOther = false)
    (h1 : (exactSum a.lower b.lower).Fits) (h2 : (exactSum a.upper b.upper).Fits) :
    ∃ c, a.add b = .ok c ∧ c.Valid ∧ c.lower = exactSum a.lower b.lower ∧
      c.upper = exactSum a.upper b.upper ∧
      ∀ x ∈ a, ∀ y ∈ b, Word.Fits (x + y) → c.contains (x + y) = true := by
  have hadd := add_of_fits hda hdb h1 h2
  obtain ⟨hvalid, hclosed, hsums⟩ := add_spec ha hb hadd
  refine ⟨_, hadd, hvalid, ?_⟩
  split_ifs at hvalid hclosed hsums ⊢ with hsuffice
  · refine ⟨lower_interval h1, upper_interval h2, fun x hx y hy hfits => ?_⟩
    obtain ⟨h3, h4⟩ := mem_interval_iff.mp (hsums x hx y hy)
    exact contains_interval h1 h2 h3 h4 hfits
  · obtain ⟨hbounds, hpairs⟩ := not_or.mp hsuffice
    have hopen : a.isOpen = false ∧ b.isOpen = false := by
      simp only [boundsSuffice, Bool.or_eq_true, not_or, Bool.not_eq_true] at hbounds
      exact hbounds.1
    have hpairs' := not_lt.mp hpairs
    have hfits : ∀ v ∈ a.sums b, Word.Fits v := by
      intro v hv
      obtain ⟨x, hx, y, hy, rfl⟩ := (mem_sums_iff ha hb hopen.1 hopen.2 hpairs').mp hv
      exact (hvalid.admits (hclosed hopen.1 hopen.2) (hsums x hx y hy)).2
    obtain ⟨h3, h4, h5⟩ := ha.ofIncreasing_sums hb hopen.1 hopen.2 hpairs' hfits
    exact ⟨h3, h4, fun x hx y hy _ => h5 x hx y hy⟩

/-- The bounds of supported summands are on the right sides, so their sums can be exchanged. -/
theorem add_symm : a.add b = b.add a := by
  by_cases hother : a.isOpenOther = true ∨ b.isOpenOther = true
  · rw [add_of_isOpenOther hother, add_of_isOpenOther hother.symm]
  · obtain ⟨hda, hdb⟩ := not_or.mp hother
    rw [Bool.not_eq_true] at hda hdb
    have hba := ha.bounded (isOpenOther_eq_false_iff.mp hda)
    have hbb := hb.bounded (isOpenOther_eq_false_iff.mp hdb)
    have hlow := Extended.exactSum_comm_of_ne_posInf hba.lower_ne hbb.lower_ne
    have hup := Extended.exactSum_comm_of_ne_negInf hba.upper_ne hbb.upper_ne
    by_cases hfits : (exactSum a.lower b.lower).Fits ∧ (exactSum a.upper b.upper).Fits
    · rw [add_of_fits hda hdb hfits.1 hfits.2,
        add_of_fits hdb hda (hlow ▸ hfits.1) (hup ▸ hfits.2), boundsSuffice_comm, pairs_comm,
        sums_comm, hlow, hup]
    · rw [not_and_or] at hfits
      rw [add_of_not_fits hda hdb hfits, add_of_not_fits hdb hda (by rwa [← hlow, ← hup])]

/-- **The contract of adding domains.** -/
theorem sumLaws_add : a.SumLaws b := by
  have hcases : ∀ {d : Domain}, (d.isOpen = false ∨ d.isInterval = true) → d.isOpenOther = false :=
    isOpenOther_eq_false_iff.mpr
  constructor
  case unsupported_iff =>
    rw [← isOpenOther_eq_true_iff, ← isOpenOther_eq_true_iff]
    refine ⟨fun h => ?_, add_of_isOpenOther⟩
    by_contra hother
    obtain ⟨hda, hdb⟩ := not_or.mp hother
    rw [Bool.not_eq_true] at hda hdb
    by_cases hfits : (exactSum a.lower b.lower).Fits ∧ (exactSum a.upper b.upper).Fits
    · rw [add_of_fits hda hdb hfits.1 hfits.2] at h
      cases h
    · rw [add_of_not_fits hda hdb (not_and_or.mp hfits)] at h
      cases h
  case overflow_iff =>
    intro hda hdb
    refine ⟨fun h => ?_, add_of_not_fits (hcases hda) (hcases hdb)⟩
    by_contra hfits
    rw [not_or, not_not, not_not] at hfits
    rw [add_of_fits (hcases hda) (hcases hdb) hfits.1 hfits.2] at h
    cases h
  case exists_sum =>
    intro hda hdb h1 h2
    exact ha.exists_add hb (hcases hda) (hcases hdb) h1 h2
  case comm => exact ha.add_symm hb

end Valid

/-- An open interval of even numbers. -/
def evens : Domain := { shape := .interval .negInf (.fin 2), multiplier := 2 }

/-- Values at the lower end of the range, and `0`. -/
def lowest : Domain :=
  .intervalWithZero (.fin (-9223372036854775808)) (.fin (-9223372036854775807))

theorem sumLaws_add_lowest : evens.Valid ∧ lowest.Valid ∧ evens.SumLaws lowest := by
  have h1 : evens.Valid := by decide
  have h2 : lowest.Valid := by decide
  exact ⟨h1, h2, h1.sumLaws_add h2⟩

end Domain

end ThresholdEncoding
