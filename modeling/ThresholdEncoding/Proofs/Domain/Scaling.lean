import ThresholdEncoding.Proofs.Domain.Position

/-!
# Multiples of a domain

Scaling multiplies the multiplier and keeps the shape, and looks at the two ends of the shape only.
This is enough, as all values lie between the ends. What is seen of the multiple from one side is
what is seen of the domain from the same side, or from the other one if the factor is negative; so
directions are multiplied along with the values.

* `Domain.Scalable`: the factors that a domain can be multiplied by.
* `Domain.IsMultiple`: what is promised about the multiple.
* `Valid.scaleLaws`: scaling is exact or refused, and scaling twice is scaling once.
-/

namespace ThresholdEncoding

namespace Direction

variable {dir : Direction} {m w : Int}

theorem apply_times {α : Type} (f : Direction → α) :
    f (dir.times w) = if 0 < w then f dir else f dir.reverse := apply_ite f _ _ _

/-- Two factors turn a direction around together as their product does. -/
theorem times_times (hm : m ≠ 0) (hw : w ≠ 0) : (dir.times m).times w = dir.times (m * w) := by
  unfold times
  rcases lt_or_gt_of_ne hm with hm | hm <;> rcases lt_or_gt_of_ne hw with hw | hw
  · rw [if_neg hm.not_gt, if_neg hw.not_gt, if_pos (mul_pos_of_neg_of_neg hm hw), reverse_reverse]
  · rw [if_neg hm.not_gt, if_pos hw, if_neg (mul_neg_of_neg_of_pos hm hw).not_gt]
  · rw [if_pos hm, if_neg hw.not_gt, if_neg (mul_neg_of_pos_of_neg hm hw).not_gt]
  · rw [if_pos hm, if_pos hw, if_pos (mul_pos hm hw)]

end Direction

namespace Extended

variable {x : Extended} {m w : Int}

/-- Exact products with two factors are those with their product. -/
theorem times_times (hm : m ≠ 0) (hw : w ≠ 0) : (x.times m).times w = x.times (m * w) := by
  have hinfinity : ∀ dir : Direction,
      (dir.infinity.times m).times w = dir.infinity.times (m * w) := by
    intro dir
    simp only [Direction.times_infinity, Direction.times_times hm hw]
  cases x with
  | fin n => simp only [times, mul_assoc]
  | posInf => exact hinfinity .ascending
  | negInf => exact hinfinity .descending

theorem scale?_ne_none_iff : x.scale? m ≠ none ↔ ∀ n, x = fin n → Word.Fits (n * m) := by
  cases x with
  | fin n => simp [scale?_fin_ne_none_iff]
  | negInf => simp [scale?]
  | posInf => simp [scale?]

end Extended

namespace Domain

variable {d c : Domain} {a b m w : Int}

/-- The multiplier and the finite ends of the shape still fit when they are multiplied by the
factor. -/
def Scalable (d : Domain) (w : Int) : Prop :=
  Word.Fits (d.multiplier * w) ∧
    ∀ n, d.shape.lower = .fin n ∨ d.shape.upper = .fin n → Word.Fits (n * (d.multiplier * w))

/-! ### The outcome -/

theorem setMultiplier_eq (hm : m ≠ 0) : d.setMultiplier m =
    if d.shape.lower.scale? m ≠ none ∧ d.shape.upper.scale? m ≠ none
    then .ok { d with multiplier := m } else .error .overflow := by
  unfold setMultiplier
  rw [if_neg hm]
  split_ifs with h1 h2 h2
  · exact absurd h1 (not_or.mpr h2)
  · rfl
  · rfl
  · exact absurd (not_or.mp h1) h2

/-- **Scaling is exact or refused**: the shape stays and the multiplier is multiplied, or something
does not fit. -/
theorem scale_eq (hm : d.multiplier ≠ 0) (hw : w ≠ 0) :
    (d.Scalable w → d.scale w = .ok { d with multiplier := d.multiplier * w }) ∧
      (¬ d.Scalable w → d.scale w = .error .overflow) := by
  have hends : d.Scalable w ↔ Word.Fits (d.multiplier * w) ∧
      d.shape.lower.scale? (d.multiplier * w) ≠ none ∧
      d.shape.upper.scale? (d.multiplier * w) ≠ none := by
    simp only [Scalable, Extended.scale?_ne_none_iff, or_imp, forall_and]
  rw [hends, scale]
  by_cases hfits : Word.Fits (d.multiplier * w)
  · simp only [Word.check?_of_fits hfits, setMultiplier_eq (mul_ne_zero hm hw), hfits, true_and]
    exact ⟨fun h => if_pos h, fun h => if_neg h⟩
  · simp only [Word.check?_of_not_fits hfits, hfits, false_and, false_implies, true_and,
      implies_true]

/-- Only the product of two factors counts, for failures too. -/
theorem scale_scale (h : d.scale a = .ok c) : c.scale b = d.scale (a * b) := by
  obtain ⟨rfl, -⟩ := scale_eq_ok h
  simp only [scale, setMultiplier, mul_assoc]

/-! ### Values by position -/

/-- No value of a closed domain is refused, as all of them lie between the bounds. -/
theorem Valid.at?_eq_map (h : d.Valid) (hc : d.isOpen = false) (dir : Direction) (k : Nat) :
    d.at? dir k = (d.shape.at? (d.shapeDirection dir) k).map (· * d.multiplier) := by
  cases hr : d.shape.at? (d.shapeDirection dir) k with
  | none => simp [at?, hr]
  | some r =>
    have hmem : r * d.multiplier ∈ d := ⟨r, Shape.mem_of_at? hr, mul_comm _ _⟩
    simp [at?, hr, Word.check?_of_fits (h.admits hc hmem).2]

/-! ### Multiples -/

/-- What is promised about the domain of all multiples by a factor. -/
structure IsMultiple (c d : Domain) (w : Int) : Prop where
  /-- It can be declared. -/
  valid : c.Valid
  /-- Its values are the multiples of the values. -/
  mem_iff : ∀ v, v ∈ c ↔ ∃ u ∈ d, v = w * u
  /-- It is as large. -/
  size?_eq : c.size? = d.size?
  /-- Its lower bound is the multiple of a bound, of the upper one if the factor is negative. -/
  lower_eq : c.lower = (if 0 < w then d.lower else d.upper).times w
  /-- Its upper bound is the multiple of the other bound. -/
  upper_eq : c.upper = (if 0 < w then d.upper else d.lower).times w
  /-- Its values from small to large are the multiples of the values from small to large, or from
  large to small if the factor is negative. -/
  ascending?_eq : d.isOpen = false → ∀ k,
    c.ascending? k = (if 0 < w then d.ascending? k else d.descending? k).map (w * ·)
  /-- From the other side it is the other way round. -/
  descending?_eq : d.isOpen = false → ∀ k,
    c.descending? k = (if 0 < w then d.descending? k else d.ascending? k).map (w * ·)

theorem mem_scale_iff (hc : d.scale w = .ok c) (v : Int) : v ∈ c ↔ ∃ u ∈ d, v = w * u := by
  obtain ⟨rfl, -⟩ := scale_eq_ok hc
  constructor
  · rintro ⟨r, hr, rfl⟩
    exact ⟨d.multiplier * r, ⟨r, hr, rfl⟩, by ring⟩
  · rintro ⟨u, hu, rfl⟩
    exact mul_mem_scale hc hu

section Scale
variable (h : d.Valid) (hw : w ≠ 0) (hc : d.scale w = .ok c)
include h hw hc

/-- The multiple is seen from the side that its factor turns a direction to. -/
theorem Valid.shapeDirection_scale (dir : Direction) :
    c.shapeDirection dir = d.shapeDirection (dir.times w) := by
  obtain ⟨rfl, -⟩ := scale_eq_ok hc
  show dir.times (d.multiplier * w) = (dir.times w).times d.multiplier
  rw [Direction.times_times hw h.multiplier_ne_zero, mul_comm]

theorem Valid.startBound_scale (dir : Direction) :
    c.startBound dir = (d.startBound (dir.times w)).times w := by
  have hcw := (h.scale hc).toWellFormed
  have hdir := h.shapeDirection_scale hw hc dir
  have hm := h.multiplier_ne_zero
  rw [startBound_eq_scale, startBound_eq_scale, hdir]
  obtain ⟨rfl, -⟩ := scale_eq_ok hc
  cases d.shapeDirection (dir.times w) with
  | ascending =>
    simp only [scale_eq_times h.lower, Extended.times_times hm hw]
    exact scale_eq_times hcw.lower
  | descending =>
    simp only [scale_eq_times h.upper, Extended.times_times hm hw]
    exact scale_eq_times hcw.upper

theorem Valid.at?_scale (ho : d.isOpen = false) (dir : Direction) (k : Nat) :
    c.at? dir k = (d.at? (dir.times w) k).map (w * ·) := by
  have hco : c.isOpen = false := by rwa [isOpen_scale h.toWellFormed hc]
  rw [(h.scale hc).at?_eq_map hco, h.at?_eq_map ho, h.shapeDirection_scale hw hc, Option.map_map]
  obtain ⟨rfl, -⟩ := scale_eq_ok hc
  congr 1
  funext r
  simp only [Function.comp_apply]
  ring

/-- **Multiples are exact**, from both sides. -/
theorem Valid.isMultiple_scale : c.IsMultiple d w where
  valid := h.scale hc
  mem_iff := mem_scale_iff hc
  size?_eq := by
    obtain ⟨rfl, -⟩ := scale_eq_ok hc
    rfl
  lower_eq := by
    have hstart := h.startBound_scale hw hc .ascending
    rw [Direction.apply_times d.startBound] at hstart
    exact hstart
  upper_eq := by
    have hstart := h.startBound_scale hw hc .descending
    rw [Direction.apply_times d.startBound] at hstart
    exact hstart
  ascending?_eq := fun ho k => by
    have hat := h.at?_scale hw hc ho .ascending k
    rw [Direction.apply_times (d.at? · k)] at hat
    exact hat
  descending?_eq := fun ho k => by
    have hat := h.at?_scale hw hc ho .descending k
    rw [Direction.apply_times (d.at? · k)] at hat
    exact hat

end Scale

/-- What is promised about scaling a domain. -/
structure ScaleLaws (d : Domain) : Prop where
  /-- Factors are refused just when the multiplier or a finite end would not fit. -/
  overflow_iff : ∀ w ≠ 0, d.scale w = .error .overflow ↔ ¬ d.Scalable w
  /-- Other factors give the multiple. -/
  exists_multiple : ∀ w ≠ 0, d.Scalable w → ∃ c, d.scale w = .ok c ∧ c.IsMultiple d w
  /-- Scaling twice is scaling once by the product, with the same failures. -/
  scale_scale : ∀ a b c, d.scale a = .ok c → c.scale b = d.scale (a * b)

/-- **Scaling a valid domain.** -/
theorem Valid.scaleLaws (h : d.Valid) : d.ScaleLaws where
  overflow_iff := by
    intro w hw
    obtain ⟨hok, herror⟩ := scale_eq h.multiplier_ne_zero hw
    refine ⟨fun he hs => ?_, herror⟩
    rw [hok hs] at he
    cases he
  exists_multiple := by
    intro w hw hs
    have hc := (scale_eq h.multiplier_ne_zero hw).1 hs
    exact ⟨_, hc, h.isMultiple_scale hw hc⟩
  scale_scale := fun a b c hc => scale_scale hc

/-- The values `-20, -18, …, -10` and `0`, of which the last one stands apart. -/
theorem scaleLaws_intervalWithZero :
    (⟨.intervalWithZero (.fin 5) (.fin 10), -2⟩ : Domain).Valid ∧
      (⟨.intervalWithZero (.fin 5) (.fin 10), -2⟩ : Domain).ScaleLaws :=
  ⟨by decide, Valid.scaleLaws (by decide)⟩

-- the least number of the range has no opposite there
example : (interval (.fin Word.least) (.fin 0)).scale (-1) = .error .overflow := by decide

end Domain

end ThresholdEncoding
