import Mathlib.Data.Set.Image
import ThresholdEncoding.Proofs.Domain.Sequence
import ThresholdEncoding.Proofs.Saturation

/-!
# Where the values of a domain start

A bound of a valid domain is exact: if it is finite it is the first value in its direction, and if it
is infinite there is no first value, as the functions of images are strictly monotone. Exactness is
kept when all values are multiplied, which turns the direction around if the factor is negative, and
when values of two sets are added.

* `Direction.Starts`: a set of integers starts at a number, or at the infinity a direction comes from.
* `Starts.mul`, `Starts.add`: multiples and sums.
* `Valid.starts`: the bounds of a valid domain.
-/

namespace ThresholdEncoding

namespace Direction

/-- Where a set of integers starts in a direction: at its first member, or at the infinity that the
direction comes from. -/
def Starts (dir : Direction) (S : Set Int) : Extended → Prop
  | .fin n => n ∈ S ∧ ∀ v ∈ S, ¬ dir.Precedes v n
  | x => x = dir.reverse.infinity ∧ ∀ n, ∃ v ∈ S, dir.Precedes v n

variable {dir : Direction} {S S' : Set Int} {x : Extended} {m n w : Int}

theorem starts_infinity (h : ∀ n, ∃ v ∈ S, dir.Precedes v n) :
    dir.Starts S dir.reverse.infinity := by
  cases dir <;> exact ⟨rfl, h⟩

theorem Starts.eq_infinity (h : dir.Starts S x) (hx : x.isFinite = false) :
    x = dir.reverse.infinity ∧ ∀ n, ∃ v ∈ S, dir.Precedes v n := by
  cases x with
  | fin n => cases hx
  | negInf => exact h
  | posInf => exact h

/-- The direction in which the multiples go when the factors go in the given direction. -/
def times (dir : Direction) (w : Int) : Direction := if 0 < w then dir else dir.reverse

theorem precedes_times_iff (hw : w ≠ 0) :
    (dir.times w).Precedes (m * w) (n * w) ↔ dir.Precedes m n := by
  unfold times
  split_ifs with hpos
  · cases dir
    · exact mul_lt_mul_iff_left₀ hpos
    · exact mul_lt_mul_iff_left₀ hpos
  · have hneg : w < 0 := by omega
    cases dir
    · exact mul_lt_mul_right_of_neg hneg
    · exact mul_lt_mul_right_of_neg hneg

theorem reverse_times : (dir.times w).reverse = dir.reverse.times w := by
  unfold times
  split_ifs <;> rfl

theorem times_infinity : dir.infinity.times w = (dir.times w).infinity := by
  unfold times
  cases dir <;> simp only [infinity, Extended.times] <;> split_ifs <;> rfl

/-- Multiples get beyond every number. -/
theorem exists_not_precedes_mul (dir : Direction) (hw : w ≠ 0) (n : Int) :
    ∃ m, ¬ dir.Precedes n (m * w) := by
  have hle : (n.natAbs : Int) ≤ n.natAbs * (w * w) :=
    le_mul_of_one_le_right (by omega) (mul_self_pos.mpr hw)
  cases dir with
  | ascending =>
    refine ⟨-(n.natAbs * w), not_lt.mpr ?_⟩
    rw [show -(n.natAbs * w) * w = -(n.natAbs * (w * w)) by ring]
    omega
  | descending =>
    refine ⟨n.natAbs * w, not_lt.mpr ?_⟩
    rw [mul_assoc]
    omega

/-- **Multiples** start at the multiple of the start. -/
theorem Starts.mul (h : dir.Starts S x) (hw : w ≠ 0) :
    (dir.times w).Starts ((· * w) '' S) (x.times w) := by
  cases hx : x.isFinite with
  | true =>
    obtain ⟨n, rfl⟩ := Extended.isFinite_iff.mp hx
    refine ⟨Set.mem_image_of_mem _ h.1, ?_⟩
    rintro _ ⟨v, hv, rfl⟩ hlt
    exact h.2 v hv ((precedes_times_iff hw).mp hlt)
  | false =>
    obtain ⟨rfl, hall⟩ := h.eq_infinity hx
    rw [times_infinity, ← reverse_times]
    refine starts_infinity fun n => ?_
    obtain ⟨m, hm⟩ := exists_not_precedes_mul (dir.times w) hw n
    obtain ⟨v, hv, hlt⟩ := hall m
    refine ⟨v * w, Set.mem_image_of_mem _ hv, ?_⟩
    have := (precedes_times_iff hw).mpr hlt
    generalize dir.times w = dir' at *
    cases dir' <;> simp only [Precedes] at * <;> omega

/-- Another member that does not come first changes nothing. -/
theorem Starts.insert (h : dir.Starts S x) (hn : ∀ m, x = .fin m → ¬ dir.Precedes n m) :
    dir.Starts (insert n S) x := by
  cases hx : x.isFinite with
  | true =>
    obtain ⟨m, rfl⟩ := Extended.isFinite_iff.mp hx
    refine ⟨Set.mem_insert_of_mem n h.1, ?_⟩
    rintro v (rfl | hv)
    · exact hn m rfl
    · exact h.2 v hv
  | false =>
    obtain ⟨rfl, hall⟩ := h.eq_infinity hx
    refine starts_infinity fun m => ?_
    obtain ⟨v, hv, hlt⟩ := hall m
    exact ⟨v, Set.mem_insert_of_mem n hv, hlt⟩

/-- Another member that comes first is the new start. -/
theorem starts_insert (hn : ∀ v ∈ S, ¬ dir.Precedes v n) : dir.Starts (insert n S) (.fin n) := by
  refine ⟨Set.mem_insert n S, ?_⟩
  rintro v (rfl | hv)
  · exact Precedes.irrefl
  · exact hn v hv

/-- **Sums** start at the sum of the starts. -/
theorem Starts.add (h : dir.Starts S (.fin m)) (h' : dir.Starts S' (.fin n)) :
    dir.Starts (Set.image2 (· + ·) S S') (.fin (m + n)) := by
  refine ⟨Set.mem_image2_of_mem h.1 h'.1, ?_⟩
  rintro _ ⟨u, hu, v, hv, rfl⟩
  have h1 := h.2 u hu
  have h2 := h'.2 v hv
  cases dir <;> simp only [Precedes] at * <;> omega

end Direction

/-! ### Shapes -/

namespace Shape

open Direction

variable {s : Shape} {f : MonotoneFn} {lo : Int} {lo' hi : Extended} {dir : Direction}

/-- An image starts at its first index in the direction of the function. -/
theorem image_starts (hdir : f.direction? lo hi = some dir) (hle : .fin lo ≤ hi) :
    dir.Starts {v | v ∈ image f lo hi} (.fin (f.value lo)) := by
  refine ⟨⟨lo, le_refl lo, hle, rfl⟩, ?_⟩
  rintro _ ⟨i, h1, h2, rfl⟩ hlt
  rcases MonotoneFn.value_eq_or_precedes hdir (le_refl lo) h1 h2 with heq | hlt'
  · rw [heq] at hlt; exact Precedes.irrefl hlt
  · exact Precedes.irrefl (hlt.trans hlt')

/-- With every index the values go at least one further. -/
theorem value_add_natCast (hdir : f.direction? lo .posInf = some dir) (k : Nat) :
    match dir with
    | .ascending => f.value lo + k ≤ f.value (lo + k)
    | .descending => f.value (lo + k) + k ≤ f.value lo := by
  induction k with
  | zero => cases dir <;> simp
  | succ k ih =>
    have hstep := MonotoneFn.value_precedes (i := lo + k) (j := lo + (k + 1 : Nat)) hdir (by omega)
      (by omega) Extended.le_posInf
    cases dir <;> simp only [Precedes] at * <;> push_cast at * <;> omega

/-- It ends at its last index, or goes on for ever. -/
theorem image_ends (hdir : f.direction? lo hi = some dir) (hle : .fin lo ≤ hi)
    (hend : ∀ b, hi = .fin b → f.value? b ≠ none) :
    dir.reverse.Starts {v | v ∈ image f lo hi} (endValue f dir.infinity hi) := by
  cases hi with
  | negInf => simp at hle
  | fin b =>
    rw [endValue_fin (hend b rfl)]
    refine ⟨⟨b, Extended.fin_le_fin.mp hle, Extended.le_refl _, rfl⟩, ?_⟩
    rintro _ ⟨i, h1, h2, rfl⟩ hlt
    have := MonotoneFn.value_eq_or_precedes hdir h1 (Extended.fin_le_fin.mp h2) (Extended.le_refl _)
    cases dir <;> simp only [Precedes, reverse] at * <;> omega
  | posInf =>
    have key : ∀ n, ∃ v ∈ {v | v ∈ image f lo .posInf}, dir.reverse.Precedes v n := by
      intro n
      obtain ⟨k, hk⟩ : ∃ k, (n - f.value lo).natAbs < k := ⟨_, Nat.lt_succ_self _⟩
      have hfar := value_add_natCast hdir k
      refine ⟨_, ⟨lo + k, by omega, Extended.le_posInf, rfl⟩, ?_⟩
      cases dir <;> simp only [Precedes, reverse] at * <;> omega
    have := starts_infinity key
    rwa [reverse_reverse] at this

/-- **An interval** starts at its ends. -/
theorem interval_starts (hc : endsCross lo' hi = false) :
    ascending.Starts {v | v ∈ interval lo' hi} lo' ∧ descending.Starts {v | v ∈ interval lo' hi} hi := by
  obtain ⟨hlo, hhi, hle⟩ := endsCross_eq_false_iff.mp hc
  constructor
  · cases lo' with
    | posInf => exact absurd rfl hlo
    | fin a => exact ⟨⟨Extended.le_refl _, hle⟩, fun v hv => not_lt.mpr (Extended.fin_le_fin.mp hv.1)⟩
    | negInf =>
      refine ⟨rfl, fun n => ?_⟩
      cases hi with
      | negInf => exact absurd rfl hhi
      | fin b =>
        exact ⟨min (n - 1) b, ⟨Extended.negInf_le, Extended.fin_le_fin.mpr (min_le_right _ _)⟩,
          show _ < _ by omega⟩
      | posInf => exact ⟨n - 1, ⟨Extended.negInf_le, Extended.le_posInf⟩, show _ < _ by omega⟩
  · cases hi with
    | negInf => exact absurd rfl hhi
    | fin b => exact ⟨⟨hle, Extended.le_refl _⟩, fun v hv => not_lt.mpr (Extended.fin_le_fin.mp hv.2)⟩
    | posInf =>
      refine ⟨rfl, fun n => ?_⟩
      cases lo' with
      | posInf => exact absurd rfl hlo
      | fin a =>
        exact ⟨max (n + 1) a, ⟨Extended.fin_le_fin.mpr (le_max_right _ _), Extended.le_posInf⟩,
          show _ < _ by omega⟩
      | negInf => exact ⟨n + 1, ⟨Extended.negInf_le, Extended.le_posInf⟩, show _ < _ by omega⟩

/-- **The ends of a shape** with members are where it starts from either side. -/
theorem starts (h : s.WellFormed) (hc : s.hasCrossingEnds = false) (hs : s.size? ≠ some 0) :
    ascending.Starts {v | v ∈ s} s.lower ∧ descending.Starts {v | v ∈ s} s.upper := by
  cases s with
  | interval lo hi => exact interval_starts hc
  | intervalWithZero lo hi =>
    obtain ⟨h1, h2⟩ := interval_starts (show endsCross lo hi = false from hc)
    constructor
    · show ascending.Starts (insert 0 {v | v ∈ interval lo hi}) (if zeroPrecedes lo then _ else _)
      rw [zeroPrecedes]
      split_ifs with h0 <;> rw [decide_eq_true_eq] at h0
      · exact starts_insert fun v hv => not_lt.mpr
          (Extended.fin_le_fin.mp (Extended.le_trans (Extended.le_of_lt h0) hv.1))
      · exact h1.insert fun m hm => not_lt.mpr (by rw [hm] at h0; simpa using h0)
    · show descending.Starts (insert 0 {v | v ∈ interval lo hi}) (if zeroFollows hi then _ else _)
      rw [zeroFollows]
      split_ifs with h0 <;> rw [decide_eq_true_eq] at h0
      · exact starts_insert fun v hv => not_lt.mpr
          (Extended.fin_le_fin.mp (Extended.le_trans hv.2 (Extended.le_of_lt h0)))
      · exact h2.insert fun m hm => not_lt.mpr (by rw [hm] at h0; simpa using h0)
  | listed l =>
    have hne : l ≠ [] := by rintro rfl; exact hs rfl
    constructor
    · have hlow : (listed l).lower = .fin (l.head hne) := by simp [lower, List.head?_eq_some_head hne]
      rw [hlow]
      refine ⟨List.head_mem hne, fun v hv => not_lt.mpr ?_⟩
      exact Extended.fin_le_fin.mp (hlow ▸ (between h hv).1)
    · have hup : (listed l).upper = .fin (l.getLast hne) := by
        simp [upper, List.getLast?_eq_some_getLast hne]
      rw [hup]
      refine ⟨List.getLast_mem hne, fun v hv => not_lt.mpr ?_⟩
      exact Extended.fin_le_fin.mp (hup ▸ (between h hv).2)
  | image f lo hi =>
    obtain ⟨-, hne, hle, hdir, hlo, hhi⟩ := h
    obtain ⟨dir, hdir⟩ := Option.ne_none_iff_exists'.mp hdir
    have hfirst := image_starts hdir hle
    have hlast := image_ends hdir hle (by rintro b rfl; simpa [Extended.finite?] using hhi)
    cases dir with
    | ascending =>
      have hr : rises f lo hi = true := by simp [rises, hdir]
      simp only [lower, upper, hr, if_true, endValue_fin hlo]
      exact ⟨hfirst, hlast⟩
    | descending =>
      have hr : rises f lo hi = false := by simp [rises, hdir]
      simp only [lower, upper, hr, Bool.false_eq_true, if_false, endValue_fin hlo]
      exact ⟨hlast, hfirst⟩

end Shape

namespace Domain

open Direction

variable {d : Domain}

/-- Bounds of a shape are scaled exactly. -/
theorem scale_eq_times {x : Extended} {m : Int} (h : x.scale? m ≠ none) : x.scale m = x.times m := by
  cases x with
  | fin n => exact Extended.scale_fin_of_fits (Extended.scale?_fin_ne_none_iff.mp h)
  | negInf => rfl
  | posInf => rfl

theorem times_shapeDirection (d : Domain) (dir : Direction) :
    (d.shapeDirection dir).times d.multiplier = dir := by
  unfold shapeDirection times
  split_ifs
  · rfl
  · exact reverse_reverse dir

/-- **The bounds of a valid domain** are where its values start. -/
theorem Valid.starts (h : d.Valid) (dir : Direction) :
    dir.Starts {v | v ∈ d} (d.startBound dir) := by
  obtain ⟨hc, hs⟩ := requireValues_eq_ok_iff.mp h.hasValues
  obtain ⟨h1, h2⟩ := Shape.starts h.shape hc hs
  have hset : {v | v ∈ d} = (· * d.multiplier) '' {r | r ∈ d.shape} := by
    ext v
    simp only [Set.mem_ofPred_eq, Set.mem_image, mem_iff, mul_comm, eq_comm]
  have hdir := (times_shapeDirection d dir).symm
  rw [hset, startBound_eq_scale]
  generalize d.shapeDirection dir = dir' at *
  subst hdir
  cases dir' with
  | ascending =>
    simp only [scale_eq_times h.lower]
    exact h1.mul h.multiplier_ne_zero
  | descending =>
    simp only [scale_eq_times h.upper]
    exact h2.mul h.multiplier_ne_zero

end Domain

end ThresholdEncoding
