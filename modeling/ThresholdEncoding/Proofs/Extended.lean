import ThresholdEncoding.Extended
import ThresholdEncoding.Proofs.Word

/-!
# Order and sums of extended integers

The order of the extended integers is linear. Sums saturate step by step, so they are exact only as
long as no partial sum leaves the 64 bit range; a bound on the magnitudes of all summands is enough
for that.

* `sum_cases`: without saturation, a sum with summands of one infinity is that infinity, and a sum
  of finite summands is exact.
* `fin_le_saturate_iff`: comparing with a number that fits does not notice saturation.
-/

namespace ThresholdEncoding.Extended

variable {x y z : Extended} {m n : Int}

/-! ### Order -/

@[simp] protected theorem le_refl (x : Extended) : x ≤ x := by
  cases x
  · exact negInf_le
  · exact Int.le_refl _
  · exact le_posInf

protected theorem le_trans (h1 : x ≤ y) (h2 : y ≤ z) : x ≤ z := by
  cases x <;> cases y <;> cases z <;> simp_all
  omega

protected theorem le_total (x y : Extended) : x ≤ y ∨ y ≤ x := by
  cases x <;> cases y <;> simp
  omega

protected theorem not_lt : ¬ x < y ↔ y ≤ x := by
  rw [lt_iff]; exact Decidable.not_not

protected theorem le_of_lt (h : x < y) : x ≤ y := (Extended.le_total x y).resolve_right h

protected theorem lt_of_le_of_lt (h1 : x ≤ y) (h2 : y < z) : x < z :=
  fun h => h2 (Extended.le_trans h h1)

@[simp] theorem negInf_lt_fin : negInf < fin n := by simp [lt_iff]

@[simp] theorem fin_lt_posInf : fin n < posInf := by simp [lt_iff]

@[simp] theorem negInf_lt_posInf : negInf < posInf := by simp [lt_iff]

@[simp] theorem not_posInf_lt : ¬ posInf < x := by simp [lt_iff]

@[simp] theorem not_lt_negInf : ¬ x < negInf := by simp [lt_iff]

@[simp] theorem isFinite_negInf : negInf.isFinite = false := rfl

@[simp] theorem isFinite_posInf : posInf.isFinite = false := rfl

theorem ne_posInf_of_isFinite (h : x.isFinite = true) : x ≠ posInf := by rintro rfl; cases h

theorem ne_negInf_of_isFinite (h : x.isFinite = true) : x ≠ negInf := by rintro rfl; cases h

/-! ### Sixty-four bits -/

/-- The finite value, if there is one, fits. -/
def Fits : Extended → Prop
  | fin n => Word.Fits n
  | _ => True

instance : (x : Extended) → Decidable x.Fits
  | fin n => inferInstanceAs (Decidable (Word.Fits n))
  | negInf => isTrue trivial
  | posInf => isTrue trivial

@[simp] theorem fits_fin_iff : (fin n).Fits ↔ Word.Fits n := Iff.rfl

@[simp] theorem fits_negInf : negInf.Fits := trivial

@[simp] theorem fits_posInf : posInf.Fits := trivial

/-- The magnitude of the finite value, `0` for infinities. -/
def magnitude : Extended → Nat
  | fin n => n.natAbs
  | _ => 0

@[simp] theorem magnitude_fin : (fin n).magnitude = n.natAbs := rfl

@[simp] theorem magnitude_negInf : negInf.magnitude = 0 := rfl

@[simp] theorem magnitude_posInf : posInf.magnitude = 0 := rfl

/-! ### Scaling -/

theorem scale_fin_of_fits {f : Int} (h : Word.Fits (n * f)) : (fin n).scale f = fin (n * f) :=
  saturate_of_fits h

theorem scale?_fin_ne_none_iff {f : Int} : (fin n).scale? f ≠ none ↔ Word.Fits (n * f) := by
  simp only [scale?, ne_eq, Option.map_eq_none_iff, Word.check?_eq_none_iff, not_not]

@[simp] theorem scale_negInf {f : Int} : negInf.scale f = if 0 < f then negInf else posInf := rfl

@[simp] theorem scale_posInf {f : Int} : posInf.scale f = if 0 < f then posInf else negInf := rfl

theorem fits_saturate (n : Int) : (saturate n).Fits := by
  unfold saturate
  split_ifs with h1 h2
  · trivial
  · trivial
  · exact ⟨by omega, by omega⟩

theorem fits_scale (x : Extended) (f : Int) : (x.scale f).Fits := by
  cases x with
  | fin n => exact fits_saturate (n * f)
  | negInf => rw [scale_negInf]; split_ifs <;> trivial
  | posInf => rw [scale_posInf]; split_ifs <;> trivial

section Scale
variable {f : Int}

/-- Where nothing saturates, scaling keeps the order or turns it around. -/
theorem scale_le_of_pos (hf : 0 < f) (h : x.scale? f ≠ none) (hx : x ≤ fin n) :
    x.scale f ≤ fin (n * f) := by
  cases x with
  | negInf => simp [hf]
  | posInf => simp at hx
  | fin m =>
    rw [scale_fin_of_fits (scale?_fin_ne_none_iff.mp h)]
    exact mul_le_mul_of_nonneg_right (fin_le_fin.mp hx) hf.le

theorem le_scale_of_pos (hf : 0 < f) (h : x.scale? f ≠ none) (hx : fin n ≤ x) :
    fin (n * f) ≤ x.scale f := by
  cases x with
  | negInf => simp at hx
  | posInf => simp [hf]
  | fin m =>
    rw [scale_fin_of_fits (scale?_fin_ne_none_iff.mp h)]
    exact mul_le_mul_of_nonneg_right (fin_le_fin.mp hx) hf.le

theorem le_scale_of_neg (hf : f < 0) (h : x.scale? f ≠ none) (hx : x ≤ fin n) :
    fin (n * f) ≤ x.scale f := by
  cases x with
  | negInf => simp [hf.not_gt]
  | posInf => simp at hx
  | fin m =>
    rw [scale_fin_of_fits (scale?_fin_ne_none_iff.mp h)]
    exact mul_le_mul_of_nonpos_right (fin_le_fin.mp hx) hf.le

theorem scale_le_of_neg (hf : f < 0) (h : x.scale? f ≠ none) (hx : fin n ≤ x) :
    x.scale f ≤ fin (n * f) := by
  cases x with
  | negInf => simp at hx
  | posInf => simp [hf.not_gt]
  | fin m =>
    rw [scale_fin_of_fits (scale?_fin_ne_none_iff.mp h)]
    exact mul_le_mul_of_nonpos_right (fin_le_fin.mp hx) hf.le

end Scale

/-- A scaled value is finite only if the value was. -/
theorem isFinite_of_isFinite_scale {f : Int} (h : (x.scale f).isFinite = true) :
    x.isFinite = true := by
  cases x with
  | fin n => rfl
  | negInf => rw [scale_negInf] at h; split_ifs at h <;> simp_all
  | posInf => rw [scale_posInf] at h; split_ifs at h <;> simp_all

/-! ### Addition -/

/-- **Comparing with a number that fits does not notice saturation.** -/
theorem fin_le_saturate_iff (hm : Word.Fits m) : fin m ≤ saturate n ↔ m ≤ n := by
  rw [Word.fits_iff] at hm
  unfold saturate Word.least Word.greatest
  split_ifs <;> simp <;> omega

theorem saturate_le_saturate (h : m ≤ n) : saturate m ≤ saturate n := by
  unfold saturate
  split_ifs <;> simp <;> omega

theorem add?_fin_eq_some_iff :
    (fin m).add? (fin n) = some x ↔ x = fin (m + n) ∧ Word.Fits (m + n) := by
  simp only [add?, Option.map_eq_some_iff, Word.check?_eq_some_iff]
  constructor
  · rintro ⟨_, ⟨rfl, h⟩, rfl⟩; exact ⟨rfl, h⟩
  · rintro ⟨rfl, h⟩; exact ⟨_, ⟨rfl, h⟩, rfl⟩

/-- A checked sum of lower bounds. -/
theorem add?_cases_of_ne_posInf (hx : x ≠ posInf) (hy : y ≠ posInf) (h : x.add? y = some z) :
    z = negInf ∨ ∃ m n, x = fin m ∧ y = fin n ∧ z = fin (m + n) ∧ Word.Fits (m + n) := by
  cases x with
  | posInf => exact absurd rfl hx
  | negInf => exact Or.inl (Option.some.inj h).symm
  | fin m =>
    cases y with
    | posInf => exact absurd rfl hy
    | negInf => exact Or.inl (Option.some.inj h).symm
    | fin n =>
      obtain ⟨rfl, hfits⟩ := add?_fin_eq_some_iff.mp h
      exact Or.inr ⟨m, n, rfl, rfl, rfl, hfits⟩

/-- A checked sum of upper bounds. -/
theorem add?_cases_of_ne_negInf (hx : x ≠ negInf) (hy : y ≠ negInf) (h : x.add? y = some z) :
    z = posInf ∨ ∃ m n, x = fin m ∧ y = fin n ∧ z = fin (m + n) ∧ Word.Fits (m + n) := by
  cases x with
  | negInf => exact absurd rfl hx
  | posInf => exact Or.inl (Option.some.inj h).symm
  | fin m =>
    cases y with
    | negInf => exact absurd rfl hy
    | posInf => exact Or.inl (Option.some.inj h).symm
    | fin n =>
      obtain ⟨rfl, hfits⟩ := add?_fin_eq_some_iff.mp h
      exact Or.inr ⟨m, n, rfl, rfl, rfl, hfits⟩

theorem fits_of_add? (h : x.add? y = some z) : z.Fits := by
  cases x with
  | fin m =>
    cases y with
    | fin n =>
      obtain ⟨rfl, hfits⟩ := add?_fin_eq_some_iff.mp h
      exact hfits
    | negInf => rw [← Option.some.inj h]; trivial
    | posInf => rw [← Option.some.inj h]; trivial
  | negInf => rw [← Option.some.inj h]; trivial
  | posInf => rw [← Option.some.inj h]; trivial

theorem isFinite_of_add? (hx : x.isFinite = true) (hy : y.isFinite = true)
    (h : x.add? y = some z) : z.isFinite = true := by
  obtain ⟨m, rfl⟩ := isFinite_iff.mp hx
  obtain ⟨n, rfl⟩ := isFinite_iff.mp hy
  obtain ⟨rfl, -⟩ := add?_fin_eq_some_iff.mp h
  rfl

section LowerBounds
variable (hx : x ≠ posInf) (hy : y ≠ posInf) (h : x.add? y = some z)
include hx hy h

theorem ne_posInf_of_add? : z ≠ posInf := by
  rcases add?_cases_of_ne_posInf hx hy h with rfl | ⟨m, n, -, -, rfl, -⟩ <;> simp

/-- Sums of lower bounds are lower bounds. -/
theorem add?_le_fin (hm : x ≤ fin m) (hn : y ≤ fin n) : z ≤ fin (m + n) := by
  rcases add?_cases_of_ne_posInf hx hy h with rfl | ⟨m', n', rfl, rfl, rfl, -⟩
  · exact negInf_le
  · rw [fin_le_fin] at hm hn ⊢
    omega

end LowerBounds

section UpperBounds
variable (hx : x ≠ negInf) (hy : y ≠ negInf) (h : x.add? y = some z)
include hx hy h

theorem ne_negInf_of_add? : z ≠ negInf := by
  rcases add?_cases_of_ne_negInf hx hy h with rfl | ⟨m, n, -, -, rfl, -⟩ <;> simp

/-- Sums of upper bounds are upper bounds. -/
theorem fin_le_add? (hm : fin m ≤ x) (hn : fin n ≤ y) : fin (m + n) ≤ z := by
  rcases add?_cases_of_ne_negInf hx hy h with rfl | ⟨m', n', rfl, rfl, rfl, -⟩
  · exact le_posInf
  · rw [fin_le_fin] at hm hn ⊢
    omega

/-- Sums of upper bounds stay above sums of lower bounds. -/
theorem add?_le_add? {x' y' z' : Extended} (hx' : x' ≠ posInf) (hy' : y' ≠ posInf)
    (h' : x'.add? y' = some z') (hxx : x' ≤ x) (hyy : y' ≤ y) : z' ≤ z := by
  rcases add?_cases_of_ne_posInf hx' hy' h' with rfl | ⟨m, n, rfl, rfl, rfl, -⟩
  · exact negInf_le
  · exact fin_le_add? hx hy h hxx hyy

end UpperBounds

theorem add_of_infinite (h : x.isFinite = false) : x + y = x := by
  cases x with
  | fin n => simp at h
  | negInf => rfl
  | posInf => rfl

theorem fin_add_of_infinite (h : y.isFinite = false) : fin n + y = y := by
  cases y with
  | fin n => simp at h
  | negInf => rfl
  | posInf => rfl

theorem foldl_add_of_infinite (h : x.isFinite = false) (l : List Extended) :
    l.foldl (· + ·) x = x := by
  induction l with
  | nil => rfl
  | cons y l ih => rw [List.foldl_cons, add_of_infinite h, ih]

theorem fits_add (x y : Extended) : (x + y).Fits := by
  cases x with
  | negInf => trivial
  | posInf => trivial
  | fin m => cases y with
    | negInf => trivial
    | posInf => trivial
    | fin n => exact fits_saturate _

/-- A saturating sum fits. -/
theorem fits_sum (l : List Extended) : (sum l).Fits := by
  have hfold : ∀ {x : Extended}, x.Fits → (l.foldl (· + ·) x).Fits := by
    induction l with
    | nil => exact fun h => h
    | cons y l ih => exact fun _ => ih (fits_add _ y)
  exact hfold (fits_fin_iff.mpr Word.fits_zero)

/-- What the magnitudes of finitely many numbers add up to. -/
def totalMagnitude (l : List Extended) : Nat := (l.map magnitude).sum

@[simp] theorem totalMagnitude_nil : totalMagnitude [] = 0 := rfl

@[simp] theorem totalMagnitude_cons (l : List Extended) :
    totalMagnitude (x :: l) = x.magnitude + totalMagnitude l := rfl

/-- The induction behind `sum_cases`, from any number reached so far. -/
theorem foldl_add_cases {inf : Extended} (hinf : inf.isFinite = false) (l : List Extended)
    (h : ∀ x ∈ l, x = inf ∨ x.isFinite = true) (acc : Int)
    (hm : acc.natAbs + totalMagnitude l < 9223372036854775808) :
    (inf ∈ l ∧ l.foldl (· + ·) (fin acc) = inf) ∨
      ∃ ns : List Int, l = ns.map fin ∧ l.foldl (· + ·) (fin acc) = fin (acc + ns.sum) := by
  induction l generalizing acc with
  | nil => exact Or.inr ⟨[], rfl, by simp⟩
  | cons x l ih =>
    rw [List.foldl_cons]
    rcases h x (by simp) with rfl | hx
    · rw [fin_add_of_infinite hinf]
      exact Or.inl ⟨by simp, foldl_add_of_infinite hinf l⟩
    · obtain ⟨n, rfl⟩ := isFinite_iff.mp hx
      rw [totalMagnitude_cons, magnitude_fin] at hm
      rw [fin_add_fin, saturate_of_fits (Word.fits_of_natAbs_lt (by omega))]
      rcases ih (fun y hy => h y (by simp [hy])) (acc + n) (by omega) with ⟨h1, h2⟩ | ⟨ns, rfl, h2⟩
      · exact Or.inl ⟨by simp [h1], h2⟩
      · exact Or.inr ⟨n :: ns, rfl, by rw [h2, List.sum_cons, Int.add_assoc]⟩

/-- **Sums without saturation.** Where at most one of the infinities occurs and the magnitudes stay
small, a sum is that infinity or exact. -/
theorem sum_cases {inf : Extended} (hinf : inf.isFinite = false) {l : List Extended}
    (h : ∀ x ∈ l, x = inf ∨ x.isFinite = true) (hm : totalMagnitude l < 9223372036854775808) :
    (inf ∈ l ∧ sum l = inf) ∨ ∃ ns : List Int, l = ns.map fin ∧ sum l = fin ns.sum := by
  rcases foldl_add_cases hinf l h 0 (by simpa using hm) with h | ⟨ns, h1, h2⟩
  · exact Or.inl h
  · exact Or.inr ⟨ns, h1, by rw [sum, h2, Int.zero_add]⟩

end ThresholdEncoding.Extended
