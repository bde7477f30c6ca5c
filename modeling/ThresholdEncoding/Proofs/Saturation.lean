import ThresholdEncoding.Direction
import ThresholdEncoding.Proofs.Extended

/-!
# Sums that saturate

Adding from the left saturates as soon as a summand or a partial sum leaves the 64 bit range, and the
infinity reached then absorbs all that follows. So the computed sum is exact if nothing leaves the
range, and otherwise tells on which side the range was left first, whatever the exact sum is.

* `times`, `clip`: exact products, and what is computed for them.
* `departure?`: the side on which the exact sum leaves the range first.
* `sum_map_clip`: the computed sum.
-/

namespace ThresholdEncoding

/-- The infinity that a direction leads to. -/
def Direction.infinity : Direction → Extended
  | ascending => .posInf
  | descending => .negInf

namespace Extended

variable {x : Extended} {l : List Extended} {n acc : Int}

/-- The exact product with a nonzero factor. Infinities flip with the sign of the factor. -/
def times : Extended → Int → Extended
  | fin n, f => fin (n * f)
  | x, f => if 0 < f then x else -x

/-- What is computed for an exact value. -/
def clip : Extended → Extended
  | fin n => saturate n
  | x => x

/-- The side on which a value lies outside of the 64 bit range. -/
def side? : Extended → Option Direction
  | negInf => some .descending
  | fin n =>
    if n < Word.least then some .descending
    else if Word.greatest < n then some .ascending else none
  | posInf => some .ascending

/-- The side on which the 64 bit range is left first when values are added to `acc` one after the
other, by a summand or by a partial sum. -/
def departure? (acc : Int) : List Extended → Option Direction
  | [] => none
  | fin n :: l => (fin n).side?.or ((fin (acc + n)).side?.or (departure? (acc + n) l))
  | x :: _ => x.side?

/-- The sum of the integers among the values. -/
def finiteSum (l : List Extended) : Int := (l.filterMap finite?).sum

theorem scale_eq_clip_times {f : Int} : x.scale f = (x.times f).clip := by
  cases x with
  | fin n => rfl
  | negInf => simp only [scale, times]; split_ifs <;> rfl
  | posInf => simp only [scale, times]; split_ifs <;> rfl

theorem clip_of_fits (h : x.Fits) : x.clip = x := by
  cases x with
  | fin n => exact saturate_of_fits h
  | negInf => rfl
  | posInf => rfl

theorem clip_of_side? : x.clip = (x.side?.map Direction.infinity).getD x := by
  cases x with
  | negInf => rfl
  | posInf => rfl
  | fin n =>
    simp only [clip, side?, saturate]
    split_ifs <;> rfl

theorem side?_fin_eq_none_iff : (fin n).side? = none ↔ Word.Fits n := by
  simp only [side?, Word.Fits]
  split_ifs <;> simp <;> omega

theorem isFinite_infinity (dir : Direction) : dir.infinity.isFinite = false := by
  cases dir <;> rfl

@[simp] theorem finiteSum_nil : finiteSum [] = 0 := rfl

@[simp] theorem finiteSum_cons_fin : finiteSum (fin n :: l) = n + finiteSum l := by
  simp [finiteSum, finite?]

@[simp] theorem finiteSum_map_fin (ns : List Int) : finiteSum (ns.map fin) = ns.sum := by
  induction ns with
  | nil => rfl
  | cons n ns ih => rw [List.map_cons, finiteSum_cons_fin, ih, List.sum_cons]

/-- What does not leave the range is finite. -/
theorem forall_isFinite_of_departure? (h : departure? acc l = none) :
    ∀ x ∈ l, x.isFinite = true := by
  induction l generalizing acc with
  | nil => simp
  | cons x l ih =>
    cases x with
    | negInf => cases h
    | posInf => cases h
    | fin n =>
      simp only [departure?, Option.or_eq_none_iff] at h
      exact List.forall_mem_cons.mpr ⟨rfl, ih h.2.2⟩

/-- The induction behind `sum_map_clip`, from any number reached so far. -/
theorem foldl_clip (hacc : Word.Fits acc) : (l.map clip).foldl (· + ·) (fin acc) =
    ((departure? acc l).map Direction.infinity).getD (fin (acc + finiteSum l)) := by
  induction l generalizing acc with
  | nil => simp [departure?]
  | cons x l ih =>
    rw [List.map_cons, List.foldl_cons, clip_of_side?]
    cases hx : x.side? with
    | some dir =>
      -- the summand itself saturates
      have hdep : departure? acc (x :: l) = some dir := by
        cases x <;> simp [departure?, hx]
      rw [hdep, Option.map_some, Option.getD_some, fin_add_of_infinite (isFinite_infinity dir),
        foldl_add_of_infinite (isFinite_infinity dir)]
      rfl
    | none =>
      cases x with
      | negInf => cases hx
      | posInf => cases hx
      | fin n =>
        simp only [departure?, hx, Option.none_or, Option.map_none, Option.getD_none,
          fin_add_fin, finiteSum_cons_fin]
        rw [show saturate (acc + n) = clip (fin (acc + n)) from rfl, clip_of_side?]
        cases hs : (fin (acc + n)).side? with
        | some dir =>
          rw [Option.map_some, Option.getD_some, foldl_add_of_infinite (isFinite_infinity dir)]
          rfl
        | none =>
          rw [Option.map_none, Option.getD_none, Option.none_or, ih (side?_fin_eq_none_iff.mp hs),
            Int.add_assoc]

/-- **The computed sum** is exact unless the range is left, and then the infinity of the side on
which this happens first. -/
theorem sum_map_clip : sum (l.map clip) =
    ((departure? 0 l).map Direction.infinity).getD (fin (finiteSum l)) := by
  rw [sum, foldl_clip Word.fits_zero, Int.zero_add]

end Extended

end ThresholdEncoding
