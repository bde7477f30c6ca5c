import ThresholdEncoding.Domain.Basic
import ThresholdEncoding.Proofs.Domain.Function

/-!
# Well-formed and valid domains

The constructors of domains keep all numbers in the 64 bit range, list values in increasing order,
admit only functions that are monotone on their index range, and refuse multipliers under which an
end does not fit. Domains with these properties are *well formed*. A well-formed domain with a value
is *valid*; only such domains can be declared.

* `WellFormed.interval`, …, `WellFormed.scale`: all constructors give well-formed domains.
* `Valid.scale`: scaling keeps validity.
* `Shape.Closed`: the forms of valid shapes with two finite ends.
-/

namespace ThresholdEncoding

/-- The constants of a function fit. -/
def MonotoneFn.Fits : MonotoneFn → Prop
  | affine s o => Word.Fits s ∧ Word.Fits o
  | power e c => (e : Int) < exponentLimit ∧ Word.Fits c
  | exponential b c => Word.Fits b ∧ Word.Fits c

instance : (f : MonotoneFn) → Decidable f.Fits
  | .affine _ _ => inferInstanceAs (Decidable (_ ∧ _))
  | .power _ _ => inferInstanceAs (Decidable (_ ∧ _))
  | .exponential _ _ => inferInstanceAs (Decidable (_ ∧ _))

namespace Shape

/-- What the constructors guarantee about the data of a shape. -/
def WellFormed : Shape → Prop
  | interval lo hi => lo.Fits ∧ hi.Fits
  | intervalWithZero lo hi => lo.Fits ∧ hi.Fits
  | listed l => l.Pairwise (· < ·) ∧ ∀ v ∈ l, Word.Fits v
  | image f lo hi => (f.Fits ∧ Word.Fits lo ∧ hi.Fits) ∧ hi ≠ .negInf ∧ .fin lo ≤ hi ∧
      f.direction? lo hi ≠ none ∧ f.value? lo ≠ none ∧ ¬ hi.finite?.any fun i => f.value? i = none

instance : (s : Shape) → Decidable s.WellFormed
  | interval _ _ => inferInstanceAs (Decidable (_ ∧ _))
  | intervalWithZero _ _ => inferInstanceAs (Decidable (_ ∧ _))
  | listed _ => inferInstanceAs (Decidable (_ ∧ _))
  | image _ _ _ => inferInstanceAs (Decidable (_ ∧ _))

/-- A shape with finite ends and at least one member, form by form. -/
def Closed : Shape → Prop
  | interval lo hi => ∃ a b, lo = .fin a ∧ hi = .fin b ∧ a ≤ b
  | intervalWithZero lo hi => ∃ a b, lo = .fin a ∧ hi = .fin b ∧ a ≤ b
  | listed l => l ≠ []
  | image _ lo hi => ∃ b, hi = .fin b ∧ lo ≤ b

variable {s : Shape}

theorem fits_lower (h : s.WellFormed) : s.lower.Fits := by
  cases s with
  | interval lo hi => exact h.1
  | intervalWithZero lo hi =>
    simp only [lower]
    split_ifs
    · exact Word.fits_zero
    · exact h.1
  | listed l =>
    cases l with
    | nil => trivial
    | cons v l => exact h.2 v (by simp)
  | image f lo hi =>
    simp only [lower]
    generalize (if rises f lo hi = true then Extended.fin lo else hi) = i
    cases i with
    | negInf => trivial
    | posInf => trivial
    | fin i =>
      simp only [endValue]
      cases hv : f.value? i with
      | none => trivial
      | some v => exact (MonotoneFn.value?_eq_some hv).2

theorem fits_upper (h : s.WellFormed) : s.upper.Fits := by
  cases s with
  | interval lo hi => exact h.2
  | intervalWithZero lo hi =>
    simp only [upper]
    split_ifs
    · exact Word.fits_zero
    · exact h.2
  | listed l =>
    simp only [upper]
    cases hl : l.getLast? with
    | none => trivial
    | some v => exact h.2 v (List.mem_of_getLast? hl)
  | image f lo hi =>
    simp only [upper]
    generalize (if rises f lo hi = true then hi else Extended.fin lo) = i
    cases i with
    | negInf => trivial
    | posInf => trivial
    | fin i =>
      simp only [endValue]
      cases hv : f.value? i with
      | none => trivial
      | some v => exact (MonotoneFn.value?_eq_some hv).2

theorem endValue_fin {f : MonotoneFn} {i : Int} {otherwise : Extended} (h : f.value? i ≠ none) :
    endValue f otherwise (.fin i) = .fin (f.value i) := by
  obtain ⟨v, hv⟩ := Option.ne_none_iff_exists'.mp h
  obtain ⟨rfl, -⟩ := MonotoneFn.value?_eq_some hv
  simp [endValue, hv]

/-- The values of an image lie between those at the ends of the index range, of which the upper one
may be open. -/
theorem image_between {f : MonotoneFn} {lo i : Int} {hi : Extended}
    (h : (image f lo hi).WellFormed) (h1 : lo ≤ i) (h2 : .fin i ≤ hi) :
    (image f lo hi).lower ≤ .fin (f.value i) ∧ .fin (f.value i) ≤ (image f lo hi).upper := by
  obtain ⟨-, -, -, hdir, hlo, hhi⟩ := h
  obtain ⟨dir, hdir⟩ := Option.ne_none_iff_exists'.mp hdir
  have hfirst := MonotoneFn.value_eq_or_precedes hdir (le_refl lo) h1 h2
  have hlast := fun {b : Int} (hb : hi = .fin b) =>
    MonotoneFn.value_eq_or_precedes hdir h1 (Extended.fin_le_fin.mp (hb ▸ h2))
      (by rw [hb]; exact Extended.le_refl _)
  have hend : ∀ b, hi = .fin b → f.value? b ≠ none := by
    rintro b rfl
    simpa [Extended.finite?] using hhi
  cases dir with
  | ascending =>
    have hr : rises f lo hi = true := by simp [rises, hdir]
    simp only [lower, upper, hr, if_true, Direction.Precedes, endValue_fin hlo] at *
    refine ⟨Extended.fin_le_fin.mpr (by omega), ?_⟩
    cases hi with
    | negInf => simp at h2
    | posInf => exact Extended.le_posInf
    | fin b =>
      rw [endValue_fin (hend b rfl), Extended.fin_le_fin]
      have := hlast rfl
      omega
  | descending =>
    have hr : rises f lo hi = false := by simp [rises, hdir]
    simp only [lower, upper, hr, Bool.false_eq_true, if_false, Direction.Precedes,
      endValue_fin hlo] at *
    refine ⟨?_, Extended.fin_le_fin.mpr (by omega)⟩
    cases hi with
    | negInf => simp at h2
    | posInf => exact Extended.negInf_le
    | fin b =>
      rw [endValue_fin (hend b rfl), Extended.fin_le_fin]
      have := hlast rfl
      omega

/-- **The members lie between the ends**, whether or not the shape is closed. -/
theorem between {v : Int} (h : s.WellFormed) (hv : v ∈ s) :
    s.lower ≤ .fin v ∧ .fin v ≤ s.upper := by
  cases s with
  | interval lo hi => exact hv
  | intervalWithZero lo hi =>
    simp only [lower, upper, zeroPrecedes, zeroFollows, decide_eq_true_eq]
    rcases hv with rfl | ⟨h1, h2⟩
    · constructor <;> split_ifs with h0
      · exact Extended.le_refl _
      · exact Extended.not_lt.mp h0
      · exact Extended.le_refl _
      · exact Extended.not_lt.mp h0
    · constructor <;> split_ifs with h0
      · exact Extended.le_trans (Extended.le_of_lt h0) h1
      · exact h1
      · exact Extended.le_trans h2 (Extended.le_of_lt h0)
      · exact h2
  | listed l =>
    have hsorted := h.1
    constructor
    · cases l with
      | nil => cases hv
      | cons a l =>
        rcases List.mem_cons.mp hv with rfl | hv
        · exact Extended.le_refl _
        · exact ((List.pairwise_cons.mp hsorted).1 v hv).le
    · obtain ⟨l', a, rfl⟩ := (List.eq_nil_or_concat' l).resolve_left (List.ne_nil_of_mem hv)
      simp only [upper, List.getLast?_concat, Option.map_some, Option.getD_some]
      rcases List.mem_append.mp hv with hv | hv
      · exact ((List.pairwise_append.mp hsorted).2.2 v hv a (by simp)).le
      · rw [List.mem_singleton.mp hv]
        exact Extended.le_refl _
  | image f lo hi =>
    obtain ⟨i, h1, h2, rfl⟩ := hv
    exact image_between h h1 h2

theorem endsCross_eq_false_iff {lo hi : Extended} :
    endsCross lo hi = false ↔ lo ≠ .posInf ∧ hi ≠ .negInf ∧ lo ≤ hi := by
  simp [endsCross, Extended.not_lt, and_assoc]

/-- **Finite ends** leave only the closed forms. -/
theorem closed_of_isFinite (h : s.WellFormed) (hc : s.hasCrossingEnds = false)
    (hs : s.size? ≠ some 0) (h1 : s.lower.isFinite = true) (h2 : s.upper.isFinite = true) :
    s.Closed := by
  cases s with
  | interval lo hi =>
    obtain ⟨a, rfl⟩ := Extended.isFinite_iff.mp h1
    obtain ⟨b, rfl⟩ := Extended.isFinite_iff.mp h2
    exact ⟨a, b, rfl, rfl, (endsCross_eq_false_iff.mp hc).2.2⟩
  | intervalWithZero lo hi =>
    obtain ⟨hlo, hhi, hle⟩ := endsCross_eq_false_iff.mp hc
    -- an infinite end would be the bound itself, or lie on the wrong side of the other end
    cases lo with
    | posInf => exact absurd rfl hlo
    | negInf => simp [lower, zeroPrecedes] at h1
    | fin a =>
      cases hi with
      | negInf => exact absurd rfl hhi
      | posInf => simp [upper, zeroFollows] at h2
      | fin b => exact ⟨a, b, rfl, rfl, hle⟩
  | listed l => rintro rfl; exact hs rfl
  | image f lo hi =>
    obtain ⟨-, hne, hle, -⟩ := h
    cases hi with
    | negInf => exact absurd rfl hne
    | fin b => exact ⟨b, rfl, hle⟩
    | posInf =>
      simp only [lower, upper] at h1 h2
      cases hr : rises f lo .posInf <;> simp [hr, endValue] at h1 h2

end Shape

namespace Domain

variable {d : Domain}

/-- What the constructors guarantee about a domain. -/
structure WellFormed (d : Domain) : Prop where
  /-- The data of the shape. -/
  shape : d.shape.WellFormed
  /-- The multiplier is a number of the range. -/
  fits : Word.Fits d.multiplier
  /-- The multiplier is not zero. -/
  multiplier_ne_zero : d.multiplier ≠ 0
  /-- The lower end of the shape fits under the multiplier. -/
  lower : d.shape.lower.scale? d.multiplier ≠ none
  /-- The upper end of the shape fits under the multiplier. -/
  upper : d.shape.upper.scale? d.multiplier ≠ none

instance (d : Domain) : Decidable d.WellFormed :=
  decidable_of_iff (d.shape.WellFormed ∧ Word.Fits d.multiplier ∧ d.multiplier ≠ 0 ∧
      d.shape.lower.scale? d.multiplier ≠ none ∧ d.shape.upper.scale? d.multiplier ≠ none)
    ⟨fun ⟨h1, h2, h3, h4, h5⟩ => ⟨h1, h2, h3, h4, h5⟩, fun ⟨h1, h2, h3, h4, h5⟩ =>
      ⟨h1, h2, h3, h4, h5⟩⟩

/-- A value that a variable of the domain can take. Domains with open bounds have values that are no
numbers of the range. -/
def Admits (d : Domain) (v : Int) : Prop := v ∈ d ∧ Word.Fits v

/-- The largest magnitude of a finite bound. -/
def radius (d : Domain) : Nat := max d.lower.magnitude d.upper.magnitude

/-- A well-formed domain that has values. -/
structure Valid (d : Domain) : Prop extends d.WellFormed where
  /-- The domain has a value. -/
  hasValues : d.requireValues = .ok ()

instance (d : Domain) : Decidable d.Valid :=
  decidable_of_iff (d.WellFormed ∧ d.requireValues = .ok ())
    ⟨fun ⟨h1, h2⟩ => ⟨h1, h2⟩, fun ⟨h1, h2⟩ => ⟨h1, h2⟩⟩

theorem requireValues_eq_ok_iff :
    d.requireValues = .ok () ↔ d.shape.hasCrossingEnds = false ∧ d.shape.size? ≠ some 0 := by
  unfold requireValues isEmpty size?
  split_ifs with h
  · rw [Bool.or_eq_true, decide_eq_true_eq] at h
    simp only [false_iff, not_and, not_not]
    intro hc
    simpa [hc] using h
  · simpa [not_or] using h

/-! ### Constructors -/

/-- Under the multiplier `1` the data of the shape are all that counts. -/
theorem WellFormed.of_shape {s : Shape} (h : s.WellFormed) : WellFormed { shape := s } where
  shape := h
  fits := show Word.Fits 1 by decide
  multiplier_ne_zero := show (1 : Int) ≠ 0 by decide
  lower := by
    have := Shape.fits_lower h
    cases hs : s.lower <;> simp_all [Extended.scale?, Word.check?_eq_none_iff]
  upper := by
    have := Shape.fits_upper h
    cases hs : s.upper <;> simp_all [Extended.scale?, Word.check?_eq_none_iff]

theorem WellFormed.interval {lo hi : Extended} (h1 : lo.Fits) (h2 : hi.Fits) :
    (interval lo hi).WellFormed := .of_shape ⟨h1, h2⟩

theorem WellFormed.intervalWithZero {lo hi : Extended} (h1 : lo.Fits) (h2 : hi.Fits) :
    (intervalWithZero lo hi).WellFormed := .of_shape ⟨h1, h2⟩

theorem image_eq_ok_iff {f : MonotoneFn} {lo : Int} {hi : Extended} : image f lo hi = .ok d ↔
    (hi ≠ .negInf ∧ .fin lo ≤ hi ∧ f.direction? lo hi ≠ none ∧ f.value? lo ≠ none ∧
      ¬ hi.finite?.any fun i => f.value? i = none) ∧ d = { shape := .image f lo hi } := by
  unfold image
  constructor
  · intro h
    split_ifs at h with h1 h2 h3 h4
    exact ⟨⟨h1, Extended.not_lt.mp h2, h3, not_or.mp h4⟩, (Except.ok.inj h).symm⟩
  · rintro ⟨⟨h1, h2, h3, h4⟩, rfl⟩
    rw [if_neg h1, if_neg (Extended.not_lt.mpr h2), if_neg h3, if_neg (not_or.mpr h4)]

theorem setMultiplier_eq_ok_iff {e : Domain} {m : Int} : d.setMultiplier m = .ok e ↔
    (m ≠ 0 ∧ d.shape.lower.scale? m ≠ none ∧ d.shape.upper.scale? m ≠ none) ∧
      e = { d with multiplier := m } := by
  unfold setMultiplier
  constructor
  · intro h
    split_ifs at h with h1 h2
    exact ⟨⟨h1, not_or.mp h2⟩, (Except.ok.inj h).symm⟩
  · rintro ⟨⟨h1, h2⟩, rfl⟩
    rw [if_neg h1, if_neg (not_or.mpr h2)]

theorem WellFormed.image {f : MonotoneFn} {lo : Int} {hi : Extended} (hf : f.Fits)
    (h1 : Word.Fits lo) (h2 : hi.Fits) (h : image f lo hi = .ok d) : d.WellFormed := by
  obtain ⟨hchecks, rfl⟩ := image_eq_ok_iff.mp h
  exact .of_shape ⟨⟨hf, h1, h2⟩, hchecks⟩

theorem WellFormed.setMultiplier {e : Domain} {m : Int} (h : d.WellFormed) (hm : Word.Fits m)
    (he : d.setMultiplier m = .ok e) : e.WellFormed := by
  obtain ⟨⟨hne, hlow, hup⟩, rfl⟩ := setMultiplier_eq_ok_iff.mp he
  exact ⟨h.shape, hm, hne, hlow, hup⟩

/-- Scaling keeps the shape and multiplies the multipliers. -/
theorem scale_eq_ok {e : Domain} {w : Int} (h : d.scale w = .ok e) :
    e = { d with multiplier := d.multiplier * w } ∧ Word.Fits (d.multiplier * w) ∧
      d.setMultiplier (d.multiplier * w) = .ok e := by
  unfold scale at h
  split at h
  · next m hm =>
    obtain ⟨rfl, hfits⟩ := Word.check?_eq_some_iff.mp hm
    exact ⟨(setMultiplier_eq_ok_iff.mp h).2, hfits, h⟩
  · cases h

theorem WellFormed.scale {e : Domain} {w : Int} (h : d.WellFormed) (he : d.scale w = .ok e) :
    e.WellFormed := by
  obtain ⟨-, hfits, he⟩ := scale_eq_ok he
  exact h.setMultiplier hfits he

/-- **Scaling keeps validity.** -/
theorem Valid.scale {e : Domain} {w : Int} (h : d.Valid) (he : d.scale w = .ok e) : e.Valid where
  toWellFormed := h.toWellFormed.scale he
  hasValues := by
    have h1 := requireValues_eq_ok_iff.mp h.hasValues
    obtain ⟨rfl, -⟩ := scale_eq_ok he
    exact requireValues_eq_ok_iff.mpr h1

/-! ### Bounds -/

theorem isOpen_eq_false_iff :
    d.isOpen = false ↔ d.lower.isFinite = true ∧ d.upper.isFinite = true := by
  simp [isOpen]

/-- A domain is closed just when both ends of its shape are finite. -/
theorem isOpen_iff_shape (h : d.WellFormed) : d.isOpen = false ↔
    d.shape.lower.isFinite = true ∧ d.shape.upper.isFinite = true := by
  have key : ∀ x : Extended, x.scale? d.multiplier ≠ none →
      (x.scale d.multiplier).isFinite = x.isFinite := by
    intro x hx
    cases x with
    | fin n => rw [Extended.scale_fin_of_fits (Extended.scale?_fin_ne_none_iff.mp hx)]; rfl
    | negInf => rw [Extended.scale_negInf]; split_ifs <;> rfl
    | posInf => rw [Extended.scale_posInf]; split_ifs <;> rfl
  rw [isOpen_eq_false_iff, Domain.lower, Domain.upper]
  split_ifs
  · rw [key _ h.lower, key _ h.upper]
  · rw [key _ h.lower, key _ h.upper, and_comm]

/-- **The values lie between the bounds.** -/
theorem WellFormed.between {v : Int} (h : d.WellFormed) (hv : v ∈ d) :
    d.lower ≤ .fin v ∧ .fin v ≤ d.upper := by
  obtain ⟨r, hr, rfl⟩ := hv
  obtain ⟨h1, h2⟩ := Shape.between h.shape hr
  rw [mul_comm, Domain.lower, Domain.upper]
  rcases lt_or_gt_of_ne h.multiplier_ne_zero with hm | hm
  · rw [if_neg hm.not_gt, if_neg hm.not_gt]
    exact ⟨Extended.scale_le_of_neg hm h.upper h2, Extended.le_scale_of_neg hm h.lower h1⟩
  · rw [if_pos hm, if_pos hm]
    exact ⟨Extended.scale_le_of_pos hm h.lower h1, Extended.le_scale_of_pos hm h.upper h2⟩

theorem Valid.closed (h : d.Valid) (hc : d.isOpen = false) : d.shape.Closed := by
  obtain ⟨h1, h2⟩ := requireValues_eq_ok_iff.mp h.hasValues
  obtain ⟨h3, h4⟩ := (isOpen_iff_shape h.toWellFormed).mp hc
  exact Shape.closed_of_isFinite h.shape h1 h2 h3 h4

theorem isOpen_scale {e : Domain} {w : Int} (h : d.WellFormed) (he : d.scale w = .ok e) :
    e.isOpen = d.isOpen := by
  have h1 := isOpen_iff_shape h
  have h2 := isOpen_iff_shape (h.scale he)
  obtain ⟨rfl, -⟩ := scale_eq_ok he
  cases ho : d.isOpen
  · exact h2.mpr (h1.mp ho)
  · rw [← Bool.not_eq_false, h2, ← h1, ho]; decide

/-- The values of a scaled domain are the scaled values. -/
theorem mul_mem_scale {e : Domain} {w v : Int} (he : d.scale w = .ok e) (hv : v ∈ d) :
    w * v ∈ e := by
  obtain ⟨rfl, -⟩ := scale_eq_ok he
  obtain ⟨r, hr, rfl⟩ := hv
  exact ⟨r, hr, by simp only; ring⟩

end Domain

end ThresholdEncoding
