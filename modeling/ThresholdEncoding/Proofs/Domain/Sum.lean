import ThresholdEncoding.Domain.Sum
import ThresholdEncoding.Proofs.Domain.Sequence

/-!
# Domains of sums have all sums

`Domain.add` may answer with more values than there are sums, but never with less. Its answer is a
valid domain, and it is closed if both summands are.

* `Valid.ofList`: lists of values give valid domains.
* `add_spec`: what `add` guarantees.
-/

namespace ThresholdEncoding

/-! ### Sorting and removing repetitions -/

section Lists
variable {a b v : Int} {l c : List Int}

theorem eraseReps_loop : List.eraseRepsBy.loop (· == ·) a l c =
    c.reverse ++ List.eraseRepsBy.loop (· == ·) a l [] := by
  induction l generalizing a c with
  | nil => simp [List.eraseRepsBy.loop]
  | cons b l ih =>
    rw [List.eraseRepsBy.loop, List.eraseRepsBy.loop]
    split
    · exact ih
    · rw [ih (c := a :: c), ih (c := [a])]; simp

theorem eraseReps_cons_cons :
    (a :: b :: l).eraseReps = if a = b then (b :: l).eraseReps else a :: (b :: l).eraseReps := by
  show List.eraseRepsBy.loop (· == ·) a (b :: l) [] = _
  rw [List.eraseRepsBy.loop]
  by_cases h : a = b
  · simp [h, List.eraseReps, List.eraseRepsBy]
  · have h1 : (a == b) = false := by simpa using h
    simp only [h1, h, if_false]
    exact eraseReps_loop

theorem mem_eraseReps : v ∈ l.eraseReps ↔ v ∈ l := by
  induction l with
  | nil => simp [List.eraseReps, List.eraseRepsBy]
  | cons a l ih =>
    cases l with
    | nil => simp [List.eraseReps, List.eraseRepsBy, List.eraseRepsBy.loop]
    | cons b l =>
      rw [eraseReps_cons_cons]
      split_ifs with h
      · rw [ih, List.mem_cons, List.mem_cons, List.mem_cons, h]; tauto
      · rw [List.mem_cons, ih, List.mem_cons (l := b :: l)]

/-- Without repetitions a sorted list is strictly increasing. -/
theorem pairwise_lt_eraseReps (hl : l.Pairwise (· ≤ ·)) : l.eraseReps.Pairwise (· < ·) := by
  induction l with
  | nil => exact List.Pairwise.nil
  | cons a l ih =>
    cases l with
    | nil => exact List.pairwise_singleton _ _
    | cons b l =>
      obtain ⟨h1, h2⟩ := List.pairwise_cons.mp hl
      rw [eraseReps_cons_cons]
      split_ifs with hab
      · exact ih h2
      · refine List.pairwise_cons.mpr ⟨fun c hc => ?_, ih h2⟩
        rw [mem_eraseReps] at hc
        have hb := h1 b (by simp)
        rcases List.mem_cons.mp hc with rfl | hc
        · omega
        · have := (List.pairwise_cons.mp h2).1 c hc
          omega

theorem pairwise_mergeSort_int (l : List Int) : l.mergeSort.Pairwise (· ≤ ·) := by
  have : (l.mergeSort fun a b => decide (a ≤ b)).Pairwise fun a b => decide (a ≤ b) = true :=
    List.pairwise_mergeSort (by simp only [decide_eq_true_eq]; intros; omega)
    (by intro a b; simp only [Bool.or_eq_true, decide_eq_true_eq]; omega) l
  simpa using this

theorem mem_sorted : v ∈ l.mergeSort.eraseReps ↔ v ∈ l := by
  rw [mem_eraseReps, List.mem_mergeSort]

theorem pairwise_lt_sorted (l : List Int) : l.mergeSort.eraseReps.Pairwise (· < ·) :=
  pairwise_lt_eraseReps (pairwise_mergeSort_int l)

/-- Increasing lists with the same members are equal. -/
theorem eq_of_pairwise_lt {l l' : List Int} (h : l.Pairwise (· < ·)) (h' : l'.Pairwise (· < ·))
    (hmem : ∀ v, v ∈ l ↔ v ∈ l') : l = l' := by
  have hperm : l.Perm l' :=
    (List.perm_ext_iff_of_nodup (h.imp ne_of_lt) (h'.imp ne_of_lt)).mpr hmem
  exact hperm.eq_of_pairwise (fun x y _ _ h1 h2 => absurd h1 h2.asymm) h h'

theorem sorted_of_pairwise_lt (h : l.Pairwise (· < ·)) : l.mergeSort.eraseReps = l :=
  eq_of_pairwise_lt (pairwise_lt_sorted l) h fun _ => mem_sorted

end Lists

namespace Domain

variable {a b d : Domain} {l : List Int} {v x y : Int}

theorem mem_ofList : v ∈ ofList l ↔ v ∈ l := by
  rw [mem_iff]
  simp only [ofList, one_mul, exists_eq_right']
  exact Shape.mem_listed_iff.trans mem_sorted

theorem Valid.ofList (hl : l ≠ []) (hfits : ∀ v ∈ l, Word.Fits v) : (ofList l).Valid where
  toWellFormed := .of_shape ⟨pairwise_lt_sorted l, fun v hv => hfits v (mem_sorted.mp hv)⟩
  hasValues := by
    refine requireValues_eq_ok_iff.mpr ⟨rfl, fun h => hl ?_⟩
    have h1 : l.mergeSort.eraseReps.length = 0 := Option.some.inj h
    have h2 := List.length_eq_zero_iff.mp h1
    refine List.eq_nil_iff_forall_not_mem.mpr fun v hv => ?_
    rw [← mem_sorted, h2] at hv
    simp at hv

theorem isOpen_ofList (hl : l ≠ []) (hfits : ∀ v ∈ l, Word.Fits v) : (ofList l).isOpen = false := by
  have h := Valid.ofList hl hfits
  have hne : l.mergeSort.eraseReps ≠ [] := by
    intro hnil
    refine hl (List.eq_nil_iff_forall_not_mem.mpr fun v hv => ?_)
    rw [← mem_sorted, hnil] at hv
    simp at hv
  have hpos : 0 < (ofList l).multiplier := Int.one_pos
  exact (h.toWellFormed.enumeration_of_pos (Shape.enumeration_listed h.shape hne) hpos).isOpen_eq

/-- An interval is valid if its ends do not cross. -/
theorem Valid.interval {lo hi : Extended} (h1 : lo.Fits) (h2 : hi.Fits) (hlo : lo ≠ .posInf)
    (hhi : hi ≠ .negInf) (hle : lo ≤ hi) : (Domain.interval lo hi).Valid where
  toWellFormed := .interval h1 h2
  hasValues := by
    refine requireValues_eq_ok_iff.mpr
      ⟨Shape.endsCross_eq_false_iff.mpr ⟨hlo, hhi, hle⟩, fun h0 => ?_⟩
    obtain ⟨m, hm, h3⟩ := Option.bind_eq_some_iff.mp h0
    obtain ⟨n, hn, h4⟩ := Option.bind_eq_some_iff.mp h3
    obtain rfl := Extended.finite?_eq_some_iff.mp hm
    obtain rfl := Extended.finite?_eq_some_iff.mp hn
    unfold Word.span? at h4
    rw [Extended.fin_le_fin] at hle
    split_ifs at h4
    · omega
    · cases h4

theorem mem_interval_iff {lo hi : Extended} : v ∈ Domain.interval lo hi ↔
    lo ≤ .fin v ∧ .fin v ≤ hi := by
  rw [mem_iff]
  simp only [Domain.interval, one_mul, exists_eq_right', Shape.mem_interval_iff]

theorem isOpen_interval {m n : Int} (h1 : Word.Fits m) (h2 : Word.Fits n) :
    (Domain.interval (.fin m) (.fin n)).isOpen = false := by
  have : (Domain.interval (.fin m) (.fin n)).WellFormed := .interval h1 h2
  exact (isOpen_iff_shape this).mpr ⟨rfl, rfl⟩

/-- Increasing values lie between the first and the last of them. -/
theorem between_of_increasing (hl : l ≠ []) (hinc : l.Pairwise (· < ·)) (hv : v ∈ l) :
    l.head hl ≤ v ∧ v ≤ l.getLast hl := by
  have hle : l.Pairwise (· ≤ ·) := hinc.imp le_of_lt
  exact ⟨hle.rel_head hv, hle.rel_getLast hv⟩

theorem ofIncreasing_eq (hl : l ≠ []) : ofIncreasing l =
    if (l.getLast hl - l.head hl).natAbs < l.length
      then Domain.interval (.fin (l.head hl)) (.fin (l.getLast hl)) else ofList l := by
  unfold ofIncreasing
  simp only [List.head?_eq_some_head hl, List.getLast?_eq_some_getLast hl]

/-- Increasing values give their list, or an interval between two of them around all of them. -/
theorem ofIncreasing_cases (hl : l ≠ []) (hinc : l.Pairwise (· < ·)) :
    ofIncreasing l = ofList l ∨ ∃ m ∈ l, ∃ n ∈ l, (∀ v ∈ l, m ≤ v ∧ v ≤ n) ∧
      ofIncreasing l = Domain.interval (.fin m) (.fin n) := by
  rw [ofIncreasing_eq hl]
  split_ifs
  · exact Or.inr ⟨_, List.head_mem hl, _, List.getLast_mem hl,
      fun v hv => between_of_increasing hl hinc hv, rfl⟩
  · exact Or.inl rfl

section Increasing
variable (hl : l ≠ []) (hinc : l.Pairwise (· < ·)) (hfits : ∀ v ∈ l, Word.Fits v)
include hl hinc

theorem mem_ofIncreasing (hv : v ∈ l) : v ∈ Domain.ofIncreasing l := by
  rcases ofIncreasing_cases hl hinc with h | ⟨m, -, n, -, hmn, h⟩
  · rw [h]; exact mem_ofList.mpr hv
  · rw [h]; exact mem_interval_iff.mpr (hmn v hv)

include hfits

theorem Valid.ofIncreasing : (Domain.ofIncreasing l).Valid := by
  rcases ofIncreasing_cases hl hinc with h | ⟨m, hm, n, hn, hmn, h⟩
  · rw [h]; exact .ofList hl hfits
  · rw [h]
    refine .interval (hfits m hm) (hfits n hn) ?_ ?_ ?_
    · simp
    · simp
    · exact (hmn n hn).1

theorem isOpen_ofIncreasing : (Domain.ofIncreasing l).isOpen = false := by
  rcases ofIncreasing_cases hl hinc with h | ⟨m, hm, n, hn, -, h⟩
  · rw [h]; exact isOpen_ofList hl hfits
  · rw [h]; exact isOpen_interval (hfits m hm) (hfits n hn)

end Increasing

/-! ### Sums -/

theorem addBounds_eq_ok {s : Domain} (h : a.addBounds b = .ok s) : ∃ lo hi,
    a.lower.add? b.lower = some lo ∧ a.upper.add? b.upper = some hi ∧
      s = Domain.interval lo hi := by
  unfold addBounds at h
  split at h
  · next lo hi hlo hhi => exact ⟨lo, hi, hlo, hhi, (Except.ok.inj h).symm⟩
  · cases h

/-- The interval between the sums of the bounds. -/
theorem Bounded.addBounds {s : Domain} (ha : a.Bounded) (hb : b.Bounded)
    (h : a.addBounds b = .ok s) :
    s.Valid ∧ (a.isOpen = false → b.isOpen = false → s.isOpen = false) ∧
      ∀ x y, a.lower ≤ .fin x → .fin x ≤ a.upper → b.lower ≤ .fin y → .fin y ≤ b.upper →
        x + y ∈ s := by
  obtain ⟨lo, hi, hlo, hhi, rfl⟩ := addBounds_eq_ok h
  refine ⟨.interval (Extended.fits_of_add? hlo) (Extended.fits_of_add? hhi) ?_ ?_ ?_, ?_, ?_⟩
  · exact Extended.ne_posInf_of_add? ha.lower_ne hb.lower_ne hlo
  · exact Extended.ne_negInf_of_add? ha.upper_ne hb.upper_ne hhi
  · exact Extended.add?_le_add? ha.upper_ne hb.upper_ne hhi ha.lower_ne hb.lower_ne hlo ha.le hb.le
  · intro hca hcb
    rw [isOpen_eq_false_iff] at hca hcb
    obtain ⟨m, rfl⟩ := Extended.isFinite_iff.mp (Extended.isFinite_of_add? hca.1 hcb.1 hlo)
    obtain ⟨n, rfl⟩ := Extended.isFinite_iff.mp (Extended.isFinite_of_add? hca.2 hcb.2 hhi)
    exact isOpen_interval (Extended.fits_of_add? hlo) (Extended.fits_of_add? hhi)
  · intro x y hx1 hx2 hy1 hy2
    exact mem_interval_iff.mpr ⟨Extended.add?_le_fin ha.lower_ne hb.lower_ne hlo hx1 hy1,
      Extended.fin_le_add? ha.upper_ne hb.upper_ne hhi hx2 hy2⟩

/-- The answer of `add` is the interval between the sums of the bounds or lists all sums. -/
theorem add_eq_ok {s : Domain} (h : a.add b = .ok s) :
    (a.isOpen = false ∨ a.isInterval = true) ∧ (b.isOpen = false ∨ b.isInterval = true) ∧
      ∃ hull, a.addBounds b = .ok hull ∧ (s = hull ∨
        (a.isOpen = false ∧ b.isOpen = false) ∧ a.pairs b ≤ pairLimit ∧
          s = Domain.ofIncreasing (a.sums b)) := by
  have hother : ∀ d : Domain, d.isOpenOther = false → d.isOpen = false ∨ d.isInterval = true := by
    intro d hd
    unfold isOpenOther at hd
    cases ho : d.isOpen <;> simp_all
  unfold add at h
  by_cases h1 : (a.isOpenOther || b.isOpenOther) = true
  · rw [if_pos h1] at h; cases h
  rw [if_neg h1] at h
  rw [Bool.or_eq_true, not_or, Bool.not_eq_true, Bool.not_eq_true] at h1
  refine ⟨hother a h1.1, hother b h1.2, ?_⟩
  cases hh : a.addBounds b with
  | error e => rw [hh] at h; cases h
  | ok hull =>
    rw [hh] at h
    refine ⟨hull, rfl, ?_⟩
    by_cases h2 : (a.boundsSuffice b || decide (pairLimit < a.pairs b)) = true
    · refine Or.inl ?_
      simp only [h2, if_true] at h
      exact (Except.ok.inj h).symm
    · refine Or.inr ?_
      simp only [h2] at h
      rw [Bool.or_eq_true, not_or, decide_eq_true_eq, not_lt] at h2
      have h3 : a.isOpen = false ∧ b.isOpen = false := by
        have := h2.1
        unfold boundsSuffice at this
        simp only [Bool.or_eq_true, not_or, Bool.not_eq_true] at this
        exact this.1
      exact ⟨h3, h2.2, (Except.ok.inj h).symm⟩

/-- Domains with few pairs of values have few values. -/
theorem Enumeration.le_pairLimit {m n : Nat} {f g : Nat → Int} (ha : a.Enumeration m f)
    (hb : b.Enumeration n g) (h : a.pairs b ≤ pairLimit) : m ≤ pairLimit ∧ n ≤ pairLimit := by
  have hm := ha.pos
  have hn := hb.pos
  unfold pairs Word.positionLimit at h
  unfold pairLimit at *
  cases hsa : a.size? with
  | none => simp [hsa] at h
  | some m' =>
    cases hsb : b.size? with
    | none => simp [hsa, hsb] at h
    | some n' =>
      obtain rfl := ha.size_limit hsa
      obtain rfl := hb.size_limit hsb
      simp only [hsa, hsb] at h
      have h1 := Nat.le_mul_of_pos_right m' hn
      have h2 := Nat.le_mul_of_pos_left n' hm
      omega

/-- The listed sums are all sums. -/
theorem mem_sums_iff (ha : a.Valid) (hb : b.Valid) (hca : a.isOpen = false)
    (hcb : b.isOpen = false) (h : a.pairs b ≤ pairLimit) :
    v ∈ a.sums b ↔ ∃ x ∈ a, ∃ y ∈ b, x + y = v := by
  obtain ⟨m, f, hf⟩ := ha.exists_enumeration hca
  obtain ⟨n, g, hg⟩ := hb.exists_enumeration hcb
  obtain ⟨hm, hn⟩ := hf.le_pairLimit hg h
  have hall : ∀ {d : Domain} {n : Nat} {g : Nat → Int} (_ : d.Enumeration n g) (_ : n ≤ pairLimit)
      {v : Int}, v ∈ d.valuesFrom .ascending 0 ↔ v ∈ d := by
    intro d n g hg hn v
    unfold pairLimit at hn
    rw [hg.mem_valuesFrom_iff, hg.mem_iff]
    constructor
    · rintro ⟨j, -, hj, -, rfl⟩; exact ⟨j, hj, rfl⟩
    · rintro ⟨j, hj, rfl⟩; exact ⟨j, by omega, hj, hg.lt_reach hj (by omega), rfl⟩
  unfold sums
  rw [mem_sorted, List.mem_flatMap]
  simp only [List.mem_map, hall hf hm, hall hg hn]

/-- **What `add` guarantees**: a valid domain with all sums, closed if both summands are. -/
theorem add_spec {s : Domain} (ha : a.Valid) (hb : b.Valid) (h : a.add b = .ok s) :
    s.Valid ∧ (a.isOpen = false → b.isOpen = false → s.isOpen = false) ∧
      ∀ x ∈ a, ∀ y ∈ b, x + y ∈ s := by
  obtain ⟨hda, hdb, hull, hh, hs⟩ := add_eq_ok h
  obtain ⟨h1, h2, h3⟩ := (ha.bounded hda).addBounds (hb.bounded hdb) hh
  have h4 : ∀ x ∈ a, ∀ y ∈ b, x + y ∈ hull := by
    intro x hx y hy
    obtain ⟨hx1, hx2⟩ := ha.between hx
    obtain ⟨hy1, hy2⟩ := hb.between hy
    exact h3 x y hx1 hx2 hy1 hy2
  rcases hs with rfl | ⟨⟨hca, hcb⟩, hpairs, rfl⟩
  · exact ⟨h1, h2, h4⟩
  · have hmem := fun {v} => mem_sums_iff (v := v) ha hb hca hcb hpairs
    obtain ⟨m, f, hf⟩ := ha.exists_enumeration hca
    obtain ⟨n, g, hg⟩ := hb.exists_enumeration hcb
    have hne : a.sums b ≠ [] := by
      intro hnil
      have := hmem.mpr ⟨_, hf.mem hf.pos, _, hg.mem hg.pos, rfl⟩
      rw [hnil] at this
      simp at this
    have hfits : ∀ v ∈ a.sums b, Word.Fits v := by
      intro v hv
      obtain ⟨x, hx, y, hy, rfl⟩ := hmem.mp hv
      exact (h1.admits (h2 hca hcb) (h4 x hx y hy)).2
    have hinc : (a.sums b).Pairwise (· < ·) := pairwise_lt_sorted _
    refine ⟨.ofIncreasing hne hinc hfits, fun _ _ => isOpen_ofIncreasing hne hinc hfits, ?_⟩
    intro x hx y hy
    exact mem_ofIncreasing hne hinc (hmem.mpr ⟨x, hx, y, hy, rfl⟩)

end Domain

end ThresholdEncoding
