import ThresholdEncoding.Proofs.BoundarySearch
import ThresholdEncoding.Proofs.Domain.Extent

/-!
# The look-up by position

Whether a domain is open or not, what the look-up by position finds are values. The first position
holds the bound where the direction starts, and from there on the positions hold values without a
hole, strictly in the direction, until the look-up ends. So a search among the positions finds a
boundary.

* `Valid.at?_zero_iff`: the first position.
* `Direction.Advances`, `WellFormed.advances`: no holes.
* `Valid.exists_boundary`: searching among the positions.
-/

namespace ThresholdEncoding

open Direction

/-- A partial sequence has no holes and goes strictly in a direction. -/
def Direction.Advances (dir : Direction) (q : Nat → Option Int) : Prop :=
  ∀ ⦃j k u⦄, q k = some u → j < k → ∃ u', q j = some u' ∧ dir.Precedes u' u

theorem Direction.Precedes.fits_between {dir : Direction} {a b c : Int} (h1 : dir.Precedes a b)
    (h2 : dir.Precedes b c) (ha : Word.Fits a) (hc : Word.Fits c) : Word.Fits b := by
  cases dir with
  | ascending => exact Word.fits_of_between ha hc (le_of_lt h1) (le_of_lt h2)
  | descending => exact Word.fits_of_between hc ha (le_of_lt h2) (le_of_lt h1)

namespace Direction.Advances

variable {dir : Direction} {q q' : Nat → Option Int} {x : Int}

/-- Another value before all others, as far as positions go. -/
theorem cons (hq : dir.Advances q) (hfirst : q' 0 = some x)
    (hrest : ∀ {k u}, q' (k + 1) = some u ↔ k + 1 < 9223372036854775808 ∧ q k = some u)
    (hx : ∀ {k u}, q k = some u → dir.Precedes x u) : dir.Advances q' := by
  intro j k u hu hjk
  obtain ⟨k, rfl⟩ : ∃ k', k = k' + 1 := ⟨k - 1, by omega⟩
  obtain ⟨hk, hu⟩ := hrest.mp hu
  by_cases hj : j = 0
  · subst hj
    exact ⟨x, hfirst, hx hu⟩
  · obtain ⟨j, rfl⟩ : ∃ j', j = j' + 1 := ⟨j - 1, by omega⟩
    obtain ⟨u', hu', hprec⟩ := hq hu (show j < k by omega)
    exact ⟨u', hrest.mpr ⟨by omega, hu'⟩, hprec⟩

/-- Another value behind all others. -/
theorem concat (hq : dir.Advances q) (hmono : ∀ {k u}, q k = some u → q' k = some u)
    (hlast : ∀ {k u}, q' k = some u →
      q k = some u ∨ ∀ j < k, ∃ u', q j = some u' ∧ dir.Precedes u' u) : dir.Advances q' := by
  intro j k u hu hjk
  obtain ⟨u', hu', hprec⟩ : ∃ u', q j = some u' ∧ dir.Precedes u' u := by
    rcases hlast hu with hu | hall
    · exact hq hu hjk
    · exact hall j hjk
  exact ⟨u', hmono hu', hprec⟩

end Direction.Advances

namespace Shape

variable {s : Shape} {lo hi : Extended} {k : Nat} {v : Int}

/-! ### Intervals -/

theorem mem_of_intervalFromLow? (h : intervalFromLow? lo hi k = some v) :
    lo ≤ .fin v ∧ .fin v ≤ hi := by
  obtain ⟨a, ha, -⟩ := Option.bind_eq_some_iff.mp h
  obtain rfl := Extended.finite?_eq_some_iff.mp ha
  obtain ⟨-, -, rfl, hle⟩ := intervalFromLow?_eq_some_iff.mp h
  exact ⟨Extended.fin_le_fin.mpr (by omega), hle⟩

theorem mem_of_intervalFromHigh? (h : intervalFromHigh? lo hi k = some v) :
    lo ≤ .fin v ∧ .fin v ≤ hi := by
  obtain ⟨b, hb, -⟩ := Option.bind_eq_some_iff.mp h
  obtain rfl := Extended.finite?_eq_some_iff.mp hb
  obtain ⟨-, -, rfl, hle⟩ := intervalFromHigh?_eq_some_iff.mp h
  exact ⟨hle, Extended.fin_le_fin.mpr (by omega)⟩

theorem advances_intervalFromLow? (hlo : lo.Fits) : ascending.Advances (intervalFromLow? lo hi) := by
  intro j k u hu hjk
  obtain ⟨a, ha, -⟩ := Option.bind_eq_some_iff.mp hu
  obtain rfl := Extended.finite?_eq_some_iff.mp ha
  obtain ⟨hk, hfits, rfl, hle⟩ := intervalFromLow?_eq_some_iff.mp hu
  have hlt : a + j < a + k := by omega
  refine ⟨a + j, intervalFromLow?_eq_some_iff.mpr ⟨by omega, ?_, rfl, ?_⟩, hlt⟩
  · exact Word.fits_of_between hlo hfits (by omega) hlt.le
  · exact Extended.le_trans (Extended.fin_le_fin.mpr hlt.le) hle

theorem advances_intervalFromHigh? (hhi : hi.Fits) :
    descending.Advances (intervalFromHigh? lo hi) := by
  intro j k u hu hjk
  obtain ⟨b, hb, -⟩ := Option.bind_eq_some_iff.mp hu
  obtain rfl := Extended.finite?_eq_some_iff.mp hb
  obtain ⟨hk, hfits, rfl, hle⟩ := intervalFromHigh?_eq_some_iff.mp hu
  have hlt : b - k < b - j := by omega
  refine ⟨b - j, intervalFromHigh?_eq_some_iff.mpr ⟨by omega, ?_, rfl, ?_⟩, hlt⟩
  · exact Word.fits_of_between hfits hhi hlt.le (by omega)
  · exact Extended.le_trans hle (Extended.fin_le_fin.mpr hlt.le)

/-! ### Intervals and zero -/

/-- Behind an interval that ends below `0` follows the next number, which fits. -/
theorem add_one_eq_iff (hhi : hi.Fits) (hf : zeroFollows hi = true) :
    hi + .fin 1 = .fin v ↔ hi = .fin (v - 1) := by
  cases hi with
  | negInf => exact iff_of_false (by intro h; cases h) (by intro h; cases h)
  | posInf => cases hf
  | fin b =>
    simp only [zeroFollows, decide_eq_true_eq, Extended.fin_lt_fin] at hf
    rw [Extended.fits_fin_iff, Word.fits_iff] at hhi
    rw [Extended.fin_add_fin, Extended.saturate_of_fits (by rw [Word.fits_iff]; omega),
      Extended.fin.injEq, Extended.fin.injEq]
    omega

/-- Before an interval that starts above `0` lies the previous number. -/
theorem sub_one_eq_iff (hlo : lo.Fits) (hp : zeroPrecedes lo = true) :
    lo + .fin (-1) = .fin v ↔ lo = .fin (v + 1) := by
  cases lo with
  | negInf => cases hp
  | posInf => exact iff_of_false (by intro h; cases h) (by intro h; cases h)
  | fin a =>
    simp only [zeroPrecedes, decide_eq_true_eq, Extended.fin_lt_fin] at hp
    rw [Extended.fits_fin_iff, Word.fits_iff] at hlo
    rw [Extended.fin_add_fin, Extended.saturate_of_fits (by rw [Word.fits_iff]; omega),
      Extended.fin.injEq, Extended.fin.injEq]
    omega

/-- Counted from an end that is not right of `0`, a position holds an integer of the interval, or
`0` if the interval just ended left of it. -/
theorem fromLow?_eq_some_iff {a : Int} (hhi : hi.Fits) (h0 : zeroPrecedes (.fin a) = false) :
    (intervalWithZero (.fin a) hi).fromLow? k = some v ↔ intervalFromLow? (.fin a) hi k = some v ∨
      ∃ b < 0, hi = .fin b ∧ Word.advance? a k = some (b + 1) ∧ v = 0 := by
  simp only [fromLow?, intervalFromLow?, h0, Bool.false_eq_true, if_false, Extended.finite?,
    Option.bind_some, Option.bind_eq_some_iff, atMost?, Option.ite_none_right_eq_some,
    Option.some.injEq]
  constructor
  · rintro ⟨w, hw, hv⟩
    split_ifs at hv with h1 h2
    · exact Or.inl ⟨w, hw, h1, Option.some.inj hv⟩
    · obtain rfl := (add_one_eq_iff hhi h2.1).mp h2.2
      have hneg := h2.1
      simp only [zeroFollows, decide_eq_true_eq, Extended.fin_lt_fin] at hneg
      exact Or.inr ⟨w - 1, hneg, rfl, by rwa [sub_add_cancel], (Option.some.inj hv).symm⟩
  · rintro (⟨w, hw, h1, rfl⟩ | ⟨b, hb, rfl, hw, rfl⟩)
    · exact ⟨w, hw, if_pos h1⟩
    · have hf : zeroFollows (.fin b) = true := by simp [zeroFollows, hb]
      have hend : Extended.fin b + .fin 1 = .fin (b + 1) :=
        (add_one_eq_iff hhi hf).mpr (by rw [add_sub_cancel_right])
      have hgt : ¬ Extended.fin (b + 1) ≤ .fin b := by
        rw [Extended.fin_le_fin]
        omega
      exact ⟨b + 1, hw, by rw [if_neg hgt, if_pos ⟨hf, hend⟩]⟩

theorem fromHigh?_eq_some_iff {b : Int} (hlo : lo.Fits) (h0 : zeroFollows (.fin b) = false) :
    (intervalWithZero lo (.fin b)).fromHigh? k = some v ↔
      intervalFromHigh? lo (.fin b) k = some v ∨
        ∃ a > 0, lo = .fin a ∧ Word.retreat? b k = some (a - 1) ∧ v = 0 := by
  simp only [fromHigh?, intervalFromHigh?, h0, Bool.false_eq_true, if_false, Extended.finite?,
    Option.bind_some, Option.bind_eq_some_iff, atLeast?, Option.ite_none_right_eq_some,
    Option.some.injEq]
  constructor
  · rintro ⟨w, hw, hv⟩
    split_ifs at hv with h1 h2
    · exact Or.inl ⟨w, hw, h1, Option.some.inj hv⟩
    · obtain rfl := (sub_one_eq_iff hlo h2.1).mp h2.2
      have hpos := h2.1
      simp only [zeroPrecedes, decide_eq_true_eq, Extended.fin_lt_fin] at hpos
      exact Or.inr ⟨w + 1, hpos, rfl, by rwa [add_sub_cancel_right], (Option.some.inj hv).symm⟩
  · rintro (⟨w, hw, h1, rfl⟩ | ⟨a, ha, rfl, hw, rfl⟩)
    · exact ⟨w, hw, if_pos h1⟩
    · have hp : zeroPrecedes (.fin a) = true := by simpa [zeroPrecedes] using ha
      have hend : Extended.fin a + .fin (-1) = .fin (a - 1) :=
        (sub_one_eq_iff hlo hp).mpr (by rw [sub_add_cancel])
      have hlt : ¬ Extended.fin a ≤ .fin (a - 1) := by
        rw [Extended.fin_le_fin]
        omega
      exact ⟨a - 1, hw, by rw [if_neg hlt, if_pos ⟨hp, hend⟩]⟩

theorem advances_fromLow?_intervalWithZero (h : (intervalWithZero lo hi).WellFormed) :
    ascending.Advances (intervalWithZero lo hi).fromLow? := by
  by_cases hfin : lo.isFinite = true
  · obtain ⟨a, rfl⟩ := Extended.isFinite_iff.mp hfin
    have hq : ascending.Advances (intervalFromLow? (.fin a) hi) := advances_intervalFromLow? h.1
    by_cases h0 : zeroPrecedes (.fin a) = true
    · refine hq.cons (x := 0) ?_ ?_ ?_
      · simp only [fromLow?, h0, Extended.finite?, Option.bind_some, if_true]
      · intro k u
        simp only [fromLow?, h0, Extended.finite?, Option.bind_some, if_true,
          Word.fits_natCast_iff, Option.ite_none_right_eq_some]
      · intro k u hu
        have hle := (mem_of_intervalFromLow? hu).1
        simp only [zeroPrecedes, decide_eq_true_eq, Extended.fin_lt_fin] at h0
        rw [Extended.fin_le_fin] at hle
        exact show (0 : Int) < u by omega
    · have hiff := fun {k v} => fromLow?_eq_some_iff (k := k) (v := v) h.2 (by simpa using h0)
      refine hq.concat (fun {k u} hu => hiff.mpr (Or.inl hu)) ?_
      intro k u hu
      refine (hiff.mp hu).imp_right ?_
      rintro ⟨b, hb, rfl, hk, rfl⟩ j hjk
      obtain ⟨hkfits, hfits, heq⟩ := Word.advance?_eq_some_iff.mp hk
      rw [Word.fits_natCast_iff] at hkfits
      refine ⟨a + j, intervalFromLow?_eq_some_iff.mpr ⟨by omega, ?_, rfl, ?_⟩, ?_⟩
      · exact Word.fits_of_between h.1 h.2 (by omega) (by omega)
      · rw [Extended.fin_le_fin]
        omega
      · exact show a + (j : Int) < 0 by omega
  · intro j k u hu
    obtain ⟨a, ha, -⟩ := Option.bind_eq_some_iff.mp hu
    rw [Extended.finite?_eq_some_iff.mp ha] at hfin
    exact absurd rfl hfin

theorem advances_fromHigh?_intervalWithZero (h : (intervalWithZero lo hi).WellFormed) :
    descending.Advances (intervalWithZero lo hi).fromHigh? := by
  by_cases hfin : hi.isFinite = true
  · obtain ⟨b, rfl⟩ := Extended.isFinite_iff.mp hfin
    have hq : descending.Advances (intervalFromHigh? lo (.fin b)) := advances_intervalFromHigh? h.2
    by_cases h0 : zeroFollows (.fin b) = true
    · refine hq.cons (x := 0) ?_ ?_ ?_
      · simp only [fromHigh?, h0, Extended.finite?, Option.bind_some, if_true]
      · intro k u
        simp only [fromHigh?, h0, Extended.finite?, Option.bind_some, if_true,
          Word.fits_natCast_iff, Option.ite_none_right_eq_some]
      · intro k u hu
        have hle := (mem_of_intervalFromHigh? hu).2
        simp only [zeroFollows, decide_eq_true_eq, Extended.fin_lt_fin] at h0
        rw [Extended.fin_le_fin] at hle
        exact show u < (0 : Int) by omega
    · have hiff := fun {k v} => fromHigh?_eq_some_iff (k := k) (v := v) h.1 (by simpa using h0)
      refine hq.concat (fun {k u} hu => hiff.mpr (Or.inl hu)) ?_
      intro k u hu
      refine (hiff.mp hu).imp_right ?_
      rintro ⟨a, ha, rfl, hk, rfl⟩ j hjk
      obtain ⟨hkfits, hfits, heq⟩ := Word.retreat?_eq_some_iff.mp hk
      rw [Word.fits_natCast_iff] at hkfits
      refine ⟨b - j, intervalFromHigh?_eq_some_iff.mpr ⟨by omega, ?_, rfl, ?_⟩, ?_⟩
      · exact Word.fits_of_between h.1 h.2 (by omega) (by omega)
      · rw [Extended.fin_le_fin]
        omega
      · exact show 0 < b - (j : Int) by omega
  · intro j k u hu
    obtain ⟨b, hb, -⟩ := Option.bind_eq_some_iff.mp hu
    rw [Extended.finite?_eq_some_iff.mp hb] at hfin
    exact absurd rfl hfin

/-! ### Lists -/

theorem advances_fromLow?_listed {l : List Int} (h : (listed l).WellFormed) :
    ascending.Advances (listed l).fromLow? := by
  intro j k u hu hjk
  obtain ⟨hk, rfl⟩ := List.getElem?_eq_some_iff.mp hu
  exact ⟨l[j], List.getElem?_eq_getElem (by omega),
    List.pairwise_iff_getElem.mp h.1 j k (by omega) hk hjk⟩

theorem advances_fromHigh?_listed {l : List Int} (h : (listed l).WellFormed) :
    descending.Advances (listed l).fromHigh? := by
  intro j k u hu hjk
  simp only [fromHigh?, Option.ite_none_right_eq_some, List.getElem?_eq_some_iff] at hu ⊢
  obtain ⟨hk, hk', rfl⟩ := hu
  exact ⟨_, ⟨by omega, by omega, rfl⟩,
    List.pairwise_iff_getElem.mp h.1 _ (l.length - (j + 1)) hk' (by omega) (by omega)⟩

/-! ### Images -/

section Image
variable {f : MonotoneFn} {lo : Int} {dir : Direction}

/-- The function keeps or turns around the direction in which indices are gone through. -/
theorem advances_bind_value? {q : Nat → Option Int} (h : (image f lo hi).WellFormed)
    (hq : dir.Advances q) (hmem : ∀ {k i}, q k = some i → lo ≤ i ∧ .fin i ≤ hi)
    (hfin : ∀ {k i}, q k = some i → dir = .descending → hi.isFinite = true) :
    (if rises f lo hi then dir else dir.reverse).Advances fun k => (q k).bind f.value? := by
  obtain ⟨-, -, -, hdir, hfirst, -⟩ := id h
  obtain ⟨fdir, hdir⟩ := Option.ne_none_iff_exists'.mp hdir
  intro j k u hu hjk
  obtain ⟨i, hk, hv⟩ := Option.bind_eq_some_iff.mp hu
  obtain ⟨i', hj, hprec⟩ := hq hk hjk
  obtain ⟨h1, h2⟩ := hmem hk
  obtain ⟨h1', h2'⟩ := hmem hj
  obtain ⟨rfl, -⟩ := MonotoneFn.value?_eq_some hv
  have hr : rises f lo hi = decide (fdir = .ascending) := by
    simp [rises, hdir]
  cases dir with
  | ascending =>
    -- the earlier index lies between the first one and one where the function can be computed
    obtain ⟨v, hv0⟩ := Option.ne_none_iff_exists'.mp hfirst
    have hval := MonotoneFn.value?_of_between hdir h1' (le_of_lt hprec) h2 hv0 hv
    refine ⟨_, Option.bind_eq_some_iff.mpr ⟨i', hj, hval⟩, ?_⟩
    have := MonotoneFn.value_precedes hdir h1' hprec h2
    rw [hr]
    cases fdir <;> exact this
  | descending =>
    obtain ⟨b, rfl⟩ := Extended.isFinite_iff.mp (hfin hk rfl)
    have hval := value?_of_mem_range h h1' (Extended.fin_le_fin.mp h2')
    refine ⟨_, Option.bind_eq_some_iff.mpr ⟨i', hj, hval⟩, ?_⟩
    have := MonotoneFn.value_precedes hdir h1 hprec h2'
    rw [hr]
    cases fdir <;> exact this

/-- From below a rising function is looked up from the first index on, a falling one from the last
index on; from above it is the other way round. -/
theorem advances_image (h : (image f lo hi).WellFormed) :
    ascending.Advances (image f lo hi).fromLow? ∧ descending.Advances (image f lo hi).fromHigh? := by
  have hlow := advances_bind_value? h (q := intervalFromLow? (.fin lo) hi)
    (advances_intervalFromLow? h.1.2.1) mem_of_intervalFromLow? (fun _ hdir => by cases hdir)
  have hhigh := advances_bind_value? h (q := intervalFromHigh? (.fin lo) hi)
    (advances_intervalFromHigh? h.1.2.2) mem_of_intervalFromHigh? (fun hi _ => by
      obtain ⟨b, hb, -⟩ := Option.bind_eq_some_iff.mp hi
      rw [Extended.finite?_eq_some_iff.mp hb]
      rfl)
  have hfromLow : (image f lo hi).fromLow? = if rises f lo hi
      then fun k => (intervalFromLow? (.fin lo) hi k).bind f.value?
      else fun k => (intervalFromHigh? (.fin lo) hi k).bind f.value? := by
    funext k
    simp only [fromLow?]
    split_ifs <;> rfl
  have hfromHigh : (image f lo hi).fromHigh? = if rises f lo hi
      then fun k => (intervalFromHigh? (.fin lo) hi k).bind f.value?
      else fun k => (intervalFromLow? (.fin lo) hi k).bind f.value? := by
    funext k
    simp only [fromHigh?]
    split_ifs <;> rfl
  rw [hfromLow, hfromHigh]
  split_ifs at hlow hhigh ⊢
  · exact ⟨hlow, hhigh⟩
  · exact ⟨hhigh, hlow⟩

end Image

/-! ### All positions -/

theorem mem_image_of_value? {f : MonotoneFn} {lo i : Int} (h1 : lo ≤ i) (h2 : .fin i ≤ hi)
    (h : f.value? i = some v) : v ∈ image f lo hi := by
  obtain ⟨rfl, -⟩ := MonotoneFn.value?_eq_some h
  exact ⟨i, h1, h2, rfl⟩

/-- Next to an interval, a position from below holds `0` or an integer of the interval. -/
theorem mem_of_fromLow? (h : s.fromLow? k = some v) : v ∈ s := by
  cases s with
  | interval lo hi => exact mem_of_intervalFromLow? h
  | listed l => exact List.mem_of_getElem? h
  | image f lo hi =>
    simp only [fromLow?] at h
    split at h <;> obtain ⟨i, hi, hv⟩ := Option.bind_eq_some_iff.mp h
    · obtain ⟨h1, h2⟩ := mem_of_intervalFromLow? hi
      exact mem_image_of_value? (Extended.fin_le_fin.mp h1) h2 hv
    · obtain ⟨h1, h2⟩ := mem_of_intervalFromHigh? hi
      exact mem_image_of_value? (Extended.fin_le_fin.mp h1) h2 hv
  | intervalWithZero lo hi =>
    simp only [fromLow?] at h
    obtain ⟨a, ha, h⟩ := Option.bind_eq_some_iff.mp h
    obtain rfl := Extended.finite?_eq_some_iff.mp ha
    split_ifs at h with h0
    · cases k with
      | zero => exact Or.inl (Option.some.inj h).symm
      | succ k =>
        simp only [Option.ite_none_right_eq_some] at h
        exact Or.inr (mem_of_intervalFromLow? h.2)
    · obtain ⟨w, hw, h⟩ := Option.bind_eq_some_iff.mp h
      obtain ⟨-, -, rfl⟩ := Word.advance?_eq_some_iff.mp hw
      split_ifs at h with h1 h2
      · cases h
        exact Or.inr ⟨Extended.fin_le_fin.mpr (by omega), h1⟩
      · exact Or.inl (Option.some.inj h).symm

theorem mem_of_fromHigh? (h : s.fromHigh? k = some v) : v ∈ s := by
  cases s with
  | interval lo hi => exact mem_of_intervalFromHigh? h
  | listed l =>
    simp only [fromHigh?, Option.ite_none_right_eq_some] at h
    exact List.mem_of_getElem? h.2
  | image f lo hi =>
    simp only [fromHigh?] at h
    split at h <;> obtain ⟨i, hi, hv⟩ := Option.bind_eq_some_iff.mp h
    · obtain ⟨h1, h2⟩ := mem_of_intervalFromHigh? hi
      exact mem_image_of_value? (Extended.fin_le_fin.mp h1) h2 hv
    · obtain ⟨h1, h2⟩ := mem_of_intervalFromLow? hi
      exact mem_image_of_value? (Extended.fin_le_fin.mp h1) h2 hv
  | intervalWithZero lo hi =>
    simp only [fromHigh?] at h
    obtain ⟨b, hb, h⟩ := Option.bind_eq_some_iff.mp h
    obtain rfl := Extended.finite?_eq_some_iff.mp hb
    split_ifs at h with h0
    · cases k with
      | zero => exact Or.inl (Option.some.inj h).symm
      | succ k =>
        simp only [Option.ite_none_right_eq_some] at h
        exact Or.inr (mem_of_intervalFromHigh? h.2)
    · obtain ⟨w, hw, h⟩ := Option.bind_eq_some_iff.mp h
      obtain ⟨-, -, rfl⟩ := Word.retreat?_eq_some_iff.mp hw
      split_ifs at h with h1 h2
      · cases h
        exact Or.inr ⟨h1, Extended.fin_le_fin.mpr (by omega)⟩
      · exact Or.inl (Option.some.inj h).symm

theorem mem_of_at? {dir : Direction} (h : s.at? dir k = some v) : v ∈ s := by
  cases dir with
  | ascending => exact mem_of_fromLow? h
  | descending => exact mem_of_fromHigh? h

/-- **Positions hold members without a hole**, from either end. -/
theorem advances (h : s.WellFormed) (dir : Direction) : dir.Advances (s.at? dir) := by
  cases s with
  | interval lo hi =>
    cases dir with
    | ascending => exact advances_intervalFromLow? h.1
    | descending => exact advances_intervalFromHigh? h.2
  | intervalWithZero lo hi =>
    cases dir with
    | ascending => exact advances_fromLow?_intervalWithZero h
    | descending => exact advances_fromHigh?_intervalWithZero h
  | listed l =>
    cases dir with
    | ascending => exact advances_fromLow?_listed h
    | descending => exact advances_fromHigh?_listed h
  | image f lo hi =>
    cases dir with
    | ascending => exact (advances_image h).1
    | descending => exact (advances_image h).2

/-! ### The first position -/

theorem intervalFromLow?_zero (hlo : lo.Fits) (hle : lo ≤ hi) :
    intervalFromLow? lo hi 0 = lo.finite? := by
  cases lo with
  | fin a => exact intervalFromLow?_eq_some_iff.mpr ⟨by omega, hlo, by simp, hle⟩
  | negInf => rfl
  | posInf => rfl

theorem intervalFromHigh?_zero (hhi : hi.Fits) (hle : lo ≤ hi) :
    intervalFromHigh? lo hi 0 = hi.finite? := by
  cases hi with
  | fin b => exact intervalFromHigh?_eq_some_iff.mpr ⟨by omega, hhi, by simp, hle⟩
  | negInf => rfl
  | posInf => rfl

theorem bind_value?_finite? {f : MonotoneFn} {x : Extended} (hx : x.isFinite = false)
    (i : Extended) : i.finite?.bind f.value? = (endValue f x i).finite? := by
  have hnone : x.finite? = none := by cases x <;> first | rfl | cases hx
  cases i with
  | negInf => exact hnone.symm
  | posInf => exact hnone.symm
  | fin i =>
    simp only [Extended.finite?, Option.bind_some, endValue]
    cases f.value? i with
    | none => exact hnone.symm
    | some v => rfl

/-- **The first position** holds the end there, if it is finite. -/
theorem fromLow?_zero (h : s.WellFormed) (hc : s.hasCrossingEnds = false) :
    s.fromLow? 0 = s.lower.finite? := by
  cases s with
  | interval lo hi =>
    exact intervalFromLow?_zero h.1 (endsCross_eq_false_iff.mp hc).2.2
  | intervalWithZero lo hi =>
    obtain ⟨hne, -, hle⟩ := endsCross_eq_false_iff.mp hc
    have hfirst := intervalFromLow?_zero h.1 hle
    simp only [lower]
    by_cases h0 : zeroPrecedes lo = true
    · rw [if_pos h0]
      cases lo with
      | negInf => cases h0
      | posInf => exact absurd rfl hne
      | fin a => simp only [fromLow?, h0, Extended.finite?, Option.bind_some, if_true]
    · rw [if_neg h0]
      cases lo with
      | negInf => rfl
      | posInf => rfl
      | fin a => exact (fromLow?_eq_some_iff h.2 (by simpa using h0)).mpr (Or.inl hfirst)
  | listed l => cases l <;> rfl
  | image f lo hi =>
    obtain ⟨⟨-, hlo, hhi⟩, -, hle, -⟩ := h
    replace hlo : (Extended.fin lo).Fits := hlo
    simp only [fromLow?, lower]
    rw [intervalFromLow?_zero hlo hle, intervalFromHigh?_zero hhi hle,
      ← bind_value?_finite? rfl]
    split_ifs <;> rfl

theorem fromHigh?_zero (h : s.WellFormed) (hc : s.hasCrossingEnds = false) :
    s.fromHigh? 0 = s.upper.finite? := by
  cases s with
  | interval lo hi =>
    exact intervalFromHigh?_zero h.2 (endsCross_eq_false_iff.mp hc).2.2
  | intervalWithZero lo hi =>
    obtain ⟨-, hne, hle⟩ := endsCross_eq_false_iff.mp hc
    have hfirst := intervalFromHigh?_zero h.2 hle
    simp only [upper]
    by_cases h0 : zeroFollows hi = true
    · rw [if_pos h0]
      cases hi with
      | negInf => exact absurd rfl hne
      | posInf => cases h0
      | fin b => simp only [fromHigh?, h0, Extended.finite?, Option.bind_some, if_true]
    · rw [if_neg h0]
      cases hi with
      | negInf => rfl
      | posInf => rfl
      | fin b => exact (fromHigh?_eq_some_iff h.1 (by simpa using h0)).mpr (Or.inl hfirst)
  | listed l =>
    simp only [fromHigh?, upper, List.getLast?_eq_getElem?, zero_add]
    cases l with
    | nil => rfl
    | cons v l => simp [Extended.finite?]
  | image f lo hi =>
    obtain ⟨⟨-, hlo, hhi⟩, -, hle, -⟩ := h
    replace hlo : (Extended.fin lo).Fits := hlo
    simp only [fromHigh?, upper]
    rw [intervalFromLow?_zero hlo hle, intervalFromHigh?_zero hhi hle,
      ← bind_value?_finite? rfl]
    split_ifs <;> rfl

/-- Only closed shapes have a size. -/
theorem closed_of_size? {n : Nat} (h : s.WellFormed) (hc : s.hasCrossingEnds = false)
    (hs : s.size? ≠ some 0) (hn : s.size? = some n) : s.Closed := by
  have hends : ∀ {lo hi : Extended} {n : Nat}, endsSpan? lo hi = some n →
      ∃ a b, lo = .fin a ∧ hi = .fin b := by
    intro lo hi n hn
    obtain ⟨a, ha, hn⟩ := Option.bind_eq_some_iff.mp hn
    obtain ⟨b, hb, -⟩ := Option.bind_eq_some_iff.mp hn
    exact ⟨a, b, Extended.finite?_eq_some_iff.mp ha, Extended.finite?_eq_some_iff.mp hb⟩
  cases s with
  | interval lo hi =>
    obtain ⟨a, b, rfl, rfl⟩ := hends hn
    exact ⟨a, b, rfl, rfl, (endsCross_eq_false_iff.mp hc).2.2⟩
  | intervalWithZero lo hi =>
    obtain ⟨m, hm, -⟩ := Option.bind_eq_some_iff.mp hn
    obtain ⟨a, b, rfl, rfl⟩ := hends hm
    exact ⟨a, b, rfl, rfl, (endsCross_eq_false_iff.mp hc).2.2⟩
  | listed l => rintro rfl; exact hs rfl
  | image f lo hi =>
    obtain ⟨a, b, -, rfl⟩ := hends hn
    exact ⟨b, rfl, h.2.2.1⟩

end Shape

namespace Domain

variable {d : Domain} {dir : Direction} {k n : Nat} {v : Int}

theorem mem_of_at? (h : d.at? dir k = some v) : v ∈ d := by
  obtain ⟨r, hr, rfl, -⟩ := at?_eq_some_iff.mp h
  refine ⟨r, ?_, mul_comm _ _⟩
  cases hdir : d.shapeDirection dir with
  | ascending => rw [hdir] at hr; exact Shape.mem_of_fromLow? hr
  | descending => rw [hdir] at hr; exact Shape.mem_of_fromHigh? hr

/-- Where positions do not count the values, they can all be asked for. -/
theorem reach_eq_of_size? (hsize : d.size? = none) : d.shape.reach = 9223372036854775808 := by
  unfold size? at hsize
  cases hs : d.shape with
  | listed l => rw [hs] at hsize; cases hsize
  | interval lo hi => rfl
  | intervalWithZero lo hi => rfl
  | image f lo hi => rfl

namespace Valid

variable (h : d.Valid)
include h

/-- Open domains have no size. -/
theorem isOpen_of_size? (hn : d.size? = some n) : d.isOpen = false := by
  obtain ⟨hc, hs⟩ := requireValues_eq_ok_iff.mp h.hasValues
  obtain ⟨m, g, hg⟩ := Shape.exists_enumeration h.shape (Shape.closed_of_size? h.shape hc hs hn)
  obtain ⟨g', hg'⟩ := h.toWellFormed.exists_enumeration hg
  exact hg'.isOpen_eq

/-- The size bounds the positions. -/
theorem lt_of_size? (hn : d.size? = some n) (hat : d.at? dir k = some v) : k < n := by
  obtain ⟨m, g, hg⟩ := h.exists_enumeration (h.isOpen_of_size? hn)
  obtain rfl := hg.size_limit hn
  cases dir with
  | ascending => exact (hg.ascending_iff.mp hat).1
  | descending => exact (hg.descending_iff.mp hat).1

/-- **The first position** holds the bound there, if it is finite. -/
theorem at?_zero (dir : Direction) : d.at? dir 0 = (d.startBound dir).finite? := by
  have key : ∀ x : Extended, x.scale? d.multiplier ≠ none →
      (x.finite?.bind fun r => Word.check? (r * d.multiplier)) = (x.scale d.multiplier).finite? := by
    intro x hx
    cases x with
    | fin r =>
      have hfits := Extended.scale?_fin_ne_none_iff.mp hx
      rw [Extended.scale_fin_of_fits hfits]
      exact Word.check?_of_fits hfits
    | negInf => rw [Extended.scale_negInf]; split_ifs <;> rfl
    | posInf => rw [Extended.scale_posInf]; split_ifs <;> rfl
  obtain ⟨hc, -⟩ := requireValues_eq_ok_iff.mp h.hasValues
  rw [startBound_eq_scale, at?]
  cases d.shapeDirection dir with
  | ascending =>
    simp only [Shape.at?, Shape.fromLow?_zero h.shape hc]
    exact key _ h.lower
  | descending =>
    simp only [Shape.at?, Shape.fromHigh?_zero h.shape hc]
    exact key _ h.upper

/-- The multiple of the first member fits. -/
theorem fits_of_at?_zero {r : Int} (hr : d.shape.at? dir 0 = some r) :
    Word.Fits (r * d.multiplier) := by
  obtain ⟨hc, -⟩ := requireValues_eq_ok_iff.mp h.hasValues
  have hlow := h.lower
  have hup := h.upper
  cases dir with
  | ascending =>
    rw [Shape.at?, Shape.fromLow?_zero h.shape hc, Extended.finite?_eq_some_iff] at hr
    rwa [hr, Extended.scale?_fin_ne_none_iff] at hlow
  | descending =>
    rw [Shape.at?, Shape.fromHigh?_zero h.shape hc, Extended.finite?_eq_some_iff] at hr
    rwa [hr, Extended.scale?_fin_ne_none_iff] at hup

/-- **Positions hold values without a hole**, strictly in the direction. Their multiples fit, as they
lie between the first one and one that does. -/
theorem advances (dir : Direction) : dir.Advances (d.at? dir) := by
  intro j k u hu hjk
  obtain ⟨r, hr, rfl, hfits⟩ := at?_eq_some_iff.mp hu
  have hadv := Shape.advances h.shape (d.shapeDirection dir)
  have hmul : ∀ {m n : Int}, (d.shapeDirection dir).Precedes m n →
      dir.Precedes (m * d.multiplier) (n * d.multiplier) := by
    intro m n hmn
    have := (precedes_times_iff h.multiplier_ne_zero).mpr hmn
    rwa [times_shapeDirection] at this
  obtain ⟨r', hr', hprec⟩ := hadv hr hjk
  refine ⟨r' * d.multiplier, at?_eq_some_iff.mpr ⟨r', hr', rfl, ?_⟩, hmul hprec⟩
  by_cases hj : j = 0
  · rw [hj] at hr'
    exact h.fits_of_at?_zero hr'
  · obtain ⟨r₀, hr₀, hprec₀⟩ := hadv hr' (show 0 < j by omega)
    exact (hmul hprec₀).fits_between (hmul hprec) (h.fits_of_at?_zero hr₀) hfits

/-- A domain has a first value in a direction only if it has an end there. -/
theorem isFinite_startBound_of_at? (hat : d.at? dir k = some v) :
    (d.startBound dir).isFinite = true := by
  have hzero : ∃ u, d.at? dir 0 = some u := by
    rcases Nat.eq_zero_or_pos k with rfl | hk
    · exact ⟨v, hat⟩
    · obtain ⟨u, hu, -⟩ := h.advances dir hat hk
      exact ⟨u, hu⟩
  obtain ⟨u, hu⟩ := hzero
  rw [h.at?_zero, Extended.finite?_eq_some_iff] at hu
  rw [hu]
  rfl

variable {p : Int → Bool}

/-- **Searching among the positions.** A test that is passed down to earlier values is passed at the
positions before a boundary, which the search finds. -/
theorem exists_boundary (hp : ∀ {a b}, dir.Precedes a b → p b = true → p a = true) :
    ∃ b, BoundarySearch.boundary d.size? (fun k => (d.at? dir k).any p) = b ∧
      ∀ k, (d.at? dir k).any p = true ↔ k < b := by
  have hdown : ∀ {j k}, j ≤ k → k < d.shape.reach → (d.at? dir k).any p = true →
      (d.at? dir j).any p = true := by
    intro j k hjk _ htest
    obtain ⟨u, hu, hpu⟩ := (Option.any_eq_true _ _).mp htest
    rcases hjk.eq_or_lt with rfl | hlt
    · exact htest
    · obtain ⟨u', hu', hprec⟩ := h.advances dir hu hlt
      exact (Option.any_eq_true _ _).mpr ⟨u', hu', hp hprec hpu⟩
  obtain ⟨b, hb, hb'⟩ := BoundarySearch.exists_boundary d.shape.reach hdown
  have hall : ∀ k, (d.at? dir k).any p = true ↔ k < b := by
    intro k
    by_cases hk : k < d.shape.reach
    · exact hb' k hk
    · refine iff_of_false (fun htest => hk ?_) (by omega)
      obtain ⟨u, hu, -⟩ := (Option.any_eq_true _ _).mp htest
      exact lt_reach_of_at? hu
  refine ⟨b, ?_, hall⟩
  cases hsize : d.size? with
  | none =>
    have := reach_eq_of_size? hsize
    exact BoundarySearch.boundary_none (by omega) hall
  | some n =>
    have hbn : b ≤ n := by
      by_contra hlt
      obtain ⟨u, hu, -⟩ := (Option.any_eq_true _ _).mp ((hall n).mpr (by omega))
      exact lt_irrefl n (h.lt_of_size? hsize hu)
    exact BoundarySearch.boundary_some hbn fun k _ => hall k

end Valid

end Domain

end ThresholdEncoding
