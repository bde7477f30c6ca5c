import ThresholdEncoding.Proofs.Domain.Enumeration

/-!
# The values of a domain from a finite end on

Seen from a finite end, the values of a valid closed domain or of an open interval are a strictly
monotone sequence `v 0, v 1, …`, finite or not. The look-up by position follows this sequence. It
stops where values or positions leave the 64 bit range, and not earlier, as long as values stay
small.

* `Valid.exists_sequence`: the sequence.
* `Valid.exists_halfOpen`: an open interval is an arithmetic sequence.
-/

namespace ThresholdEncoding

namespace Direction

theorem Precedes.trans {dir : Direction} {a b c : Int} (h1 : dir.Precedes a b)
    (h2 : dir.Precedes b c) : dir.Precedes a c := by
  cases dir <;> simp only [Precedes] at * <;> omega

theorem Precedes.irrefl {dir : Direction} {a : Int} : ¬ dir.Precedes a a := by
  cases dir <;> simp [Precedes]

end Direction

namespace Domain

variable {d : Domain} {dir : Direction} {n k : Nat} {v : Nat → Int} {u : Int}

/-- The first `n` values in a direction are `v 0, v 1, …`. -/
structure Sequence (d : Domain) (dir : Direction) (n : Nat) (v : Nat → Int) : Prop where
  pos : 0 < n
  start_eq : d.startBound dir = .fin (v 0)
  precedes : ∀ {j k}, j < k → k < n → dir.Precedes (v j) (v k)
  mem : ∀ {k}, k < n → v k ∈ d
  exists_of_mem : ∀ {u}, u ∈ d → Word.Fits u → ∃ k < n, v k = u
  of_at : ∀ {k u}, d.at? dir k = some u → k < n ∧ v k = u ∧ Word.Fits u
  at_zero : d.at? dir 0 = some (v 0)
  at_succ : ∀ {k}, d.at? dir k = some (v k) → (v k).natAbs < 9223372036854775807 → k + 1 < n →
    k + 1 < 9223372036854775808 → Word.Fits (v (k + 1)) → d.at? dir (k + 1) = some (v (k + 1))

theorem Sequence.eq_or_precedes (h : d.Sequence dir n v) {j : Nat} (hjk : j ≤ k) (hk : k < n) :
    v j = v k ∨ dir.Precedes (v j) (v k) := by
  rcases hjk.eq_or_lt with rfl | hlt
  · exact Or.inl rfl
  · exact Or.inr (h.precedes hlt hk)

/-- Values are at least as far from the first one as their positions tell. -/
theorem Sequence.le_natAbs_sub (h : d.Sequence dir n v) (hk : k < n) :
    k ≤ (v k - v 0).natAbs := by
  have key : (dir = .ascending → v 0 + k ≤ v k) ∧ (dir = .descending → v k + k ≤ v 0) := by
    induction k with
    | zero => simp
    | succ k ih =>
      have hstep := h.precedes (show k < k + 1 by omega) hk
      obtain ⟨h1, h2⟩ := ih (by omega)
      constructor
      · intro hdir
        have := h1 hdir
        rw [hdir] at hstep
        simp only [Direction.Precedes] at hstep
        push_cast
        omega
      · intro hdir
        have := h2 hdir
        rw [hdir] at hstep
        simp only [Direction.Precedes] at hstep
        push_cast
        omega
  cases hdir : dir with
  | ascending => have := key.1 hdir; omega
  | descending => have := key.2 hdir; omega

/-- Between two values that fit all values fit. -/
theorem Sequence.fits_of_le (h : d.Sequence dir n v) {m : Nat} (h0 : Word.Fits (v 0))
    (hkm : k ≤ m) (hm : m < n) (hmfits : Word.Fits (v m)) : Word.Fits (v k) := by
  have h1 := h.eq_or_precedes (Nat.zero_le k) (by omega)
  have h2 := h.eq_or_precedes hkm hm
  cases hdir : dir <;> rw [hdir] at h1 h2 <;> simp only [Direction.Precedes] at h1 h2
  · exact Word.fits_of_between h0 hmfits (by omega) (by omega)
  · exact Word.fits_of_between hmfits h0 (by omega) (by omega)

/-! ### Closed domains -/

theorem Enumeration.sequence {g : Nat → Int} (h : d.Enumeration n g) (dir : Direction) :
    ∃ v, d.Sequence dir n v := by
  have hpos := h.pos
  cases dir with
  | ascending =>
    refine ⟨g, h.pos, h.lower_eq, h.strict, h.mem, fun hu _ => h.mem_iff.mp hu, ?_,
      h.ascending_eq hpos (by omega), fun _ _ hk hk' _ => h.ascending_eq hk hk'⟩
    intro k u hu
    obtain ⟨h1, -, rfl⟩ := h.ascending_iff.mp hu
    exact ⟨h1, rfl, h.fits h1⟩
  | descending =>
    refine ⟨fun k => g (n - 1 - k), h.pos, h.upper_eq, fun hjk hk => h.strict (by omega) (by omega),
      fun hk => h.mem (by omega), ?_, ?_, h.descending_eq hpos (by omega),
      fun _ _ hk hk' _ => h.descending_eq hk hk'⟩
    · intro u hu _
      obtain ⟨k, hk, rfl⟩ := h.mem_iff.mp hu
      exact ⟨n - 1 - k, by omega, by congr 1; omega⟩
    · intro k u hu
      obtain ⟨h1, -, rfl⟩ := h.descending_iff.mp hu
      exact ⟨h1, rfl, h.fits (by omega)⟩

/-! ### Open intervals -/

/-- Seen from its only finite end, an interval consists of the multiples of `e, e + s, e + 2 * s, …`
for a sign `s`. -/
structure HalfOpen (d : Domain) (dir : Direction) (e s : Int) : Prop where
  sign : s = 1 ∨ s = -1
  direction : Direction.ofStep (s * d.multiplier) = dir
  start_eq : d.startBound dir = .fin (e * d.multiplier)
  fits : Word.Fits e
  fits_mul : Word.Fits (e * d.multiplier)
  mem_iff : ∀ {u}, u ∈ d ↔ ∃ k : Nat, (e + s * k) * d.multiplier = u
  at_iff : ∀ {k u}, d.at? dir k = some u ↔ k < 9223372036854775808 ∧ Word.Fits (e + s * k) ∧
    Word.Fits ((e + s * k) * d.multiplier) ∧ (e + s * k) * d.multiplier = u

theorem startBound_eq_scale (d : Domain) (dir : Direction) : d.startBound dir =
    (match d.shapeDirection dir with
      | .ascending => d.shape.lower
      | .descending => d.shape.upper).scale d.multiplier := by
  cases dir <;> by_cases hpos : 0 < d.multiplier <;>
    simp [startBound, shapeDirection, lower, upper, hpos, Direction.reverse]

theorem ofStep_mul_eq {s : Int} (hs : s = 1 ∨ s = -1) (hm : d.multiplier ≠ 0)
    (hdir : d.shapeDirection dir = .ofStep s) : Direction.ofStep (s * d.multiplier) = dir := by
  unfold shapeDirection Direction.ofStep at *
  rcases hs with rfl | rfl
  · split_ifs at hdir ⊢ with h1 h2 h3
    all_goals cases dir <;> first | rfl | omega | cases hdir
  · split_ifs at hdir ⊢ with h1 h2 h3
    all_goals cases dir <;> first | rfl | omega | cases hdir

/-- A shape whose look-up follows an arithmetic sequence gives a domain that does. -/
theorem WellFormed.halfOpen {e s : Int} (h : d.WellFormed) (hs : s = 1 ∨ s = -1)
    (hdir : d.shapeDirection dir = .ofStep s) (he : Word.Fits e)
    (hstart : d.startBound dir = (Extended.fin e).scale d.multiplier)
    (hfits : Word.Fits (e * d.multiplier))
    (hmem : ∀ {r}, r ∈ d.shape ↔ ∃ k : Nat, e + s * k = r)
    (hat : ∀ {k r}, d.shape.at? (.ofStep s) k = some r ↔
      k < 9223372036854775808 ∧ Word.Fits (e + s * k) ∧ e + s * k = r) :
    d.HalfOpen dir e s := by
  refine ⟨hs, ofStep_mul_eq hs h.multiplier_ne_zero hdir, ?_, he, hfits, ?_, ?_⟩
  · rw [hstart, Extended.scale_fin_of_fits hfits]
  · intro u
    rw [mem_iff]
    constructor
    · rintro ⟨r, hr, rfl⟩
      obtain ⟨k, rfl⟩ := hmem.mp hr
      exact ⟨k, mul_comm _ _⟩
    · rintro ⟨k, rfl⟩
      exact ⟨_, hmem.mpr ⟨k, rfl⟩, mul_comm _ _⟩
  · intro k u
    simp only [at?, hdir, Option.bind_eq_some_iff, Word.check?_eq_some_iff, hat]
    constructor
    · rintro ⟨_, ⟨h1, h2, rfl⟩, h3, h4⟩; exact ⟨h1, h2, h4, h3⟩
    · rintro ⟨h1, h2, h4, h3⟩; exact ⟨_, ⟨h1, h2, rfl⟩, h3, h4⟩

/-- An interval shape that is open has one of three forms. -/
theorem Valid.interval_cases (h : d.Valid) (hi : d.isInterval = true) (ho : d.isOpen = true) :
    (∃ a, d.shape = .interval (.fin a) .posInf) ∨ (∃ b, d.shape = .interval .negInf (.fin b)) ∨
      d.shape = .interval .negInf .posInf := by
  obtain ⟨lo, hi, hs⟩ : ∃ lo hi, d.shape = .interval lo hi := by
    unfold isInterval at hi
    split at hi
    · exact ⟨_, _, by assumption⟩
    · simp at hi
  have hopen := mt (isOpen_iff_shape h.toWellFormed).mpr (by simp [ho])
  obtain ⟨hc, -⟩ := requireValues_eq_ok_iff.mp h.hasValues
  rw [hs] at hopen hc
  obtain ⟨h1, h2, -⟩ := Shape.endsCross_eq_false_iff.mp hc
  cases lo with
  | posInf => exact absurd rfl h1
  | negInf =>
    cases hi with
    | negInf => exact absurd rfl h2
    | fin b => exact Or.inr (Or.inl ⟨b, hs⟩)
    | posInf => exact Or.inr (Or.inr hs)
  | fin a =>
    cases hi with
    | negInf => exact absurd rfl h2
    | fin b => exact absurd ⟨rfl, rfl⟩ hopen
    | posInf => exact Or.inl ⟨a, hs⟩

section Shapes
variable (h : d.Valid) (hfin : (d.startBound dir).isFinite = true)
include h hfin

theorem Valid.halfOpen_of_low {a : Int} (hs : d.shape = .interval (.fin a) .posInf) :
    d.HalfOpen dir a 1 := by
  have hstart := startBound_eq_scale d dir
  rw [hstart] at hfin
  have hfin' := Extended.isFinite_of_isFinite_scale hfin
  have hw := h.shape
  have hlow := h.lower
  simp only [hs, Shape.lower, Shape.upper] at hw hlow hstart hfin'
  cases hdir : d.shapeDirection dir with
  | descending => simp [hdir] at hfin'
  | ascending =>
    rw [hdir] at hstart
    refine h.halfOpen (Or.inl rfl) hdir hw.1 hstart (Extended.scale?_fin_ne_none_iff.mp hlow) ?_ ?_
    · intro r
      rw [hs, Shape.mem_interval_iff, Extended.fin_le_fin]
      constructor
      · rintro ⟨hr, -⟩; exact ⟨(r - a).toNat, by omega⟩
      · rintro ⟨k, rfl⟩; exact ⟨by omega, Extended.le_posInf⟩
    · intro k r
      rw [hs]
      refine Shape.intervalFromLow?_eq_some_iff.trans ?_
      rw [one_mul]
      constructor
      · rintro ⟨h3, h4, rfl, -⟩; exact ⟨h3, h4, rfl⟩
      · rintro ⟨h3, h4, rfl⟩; exact ⟨h3, h4, rfl, Extended.le_posInf⟩

theorem Valid.halfOpen_of_high {b : Int} (hs : d.shape = .interval .negInf (.fin b)) :
    d.HalfOpen dir b (-1) := by
  have hstart := startBound_eq_scale d dir
  rw [hstart] at hfin
  have hfin' := Extended.isFinite_of_isFinite_scale hfin
  have hw := h.shape
  have hup := h.upper
  simp only [hs, Shape.lower, Shape.upper] at hw hup hstart hfin'
  cases hdir : d.shapeDirection dir with
  | ascending => simp [hdir] at hfin'
  | descending =>
    rw [hdir] at hstart
    refine h.halfOpen (Or.inr rfl) hdir hw.2 hstart (Extended.scale?_fin_ne_none_iff.mp hup) ?_ ?_
    · intro r
      rw [hs, Shape.mem_interval_iff, Extended.fin_le_fin]
      constructor
      · rintro ⟨-, hr⟩; exact ⟨(b - r).toNat, by omega⟩
      · rintro ⟨k, rfl⟩; exact ⟨Extended.negInf_le, by omega⟩
    · intro k r
      rw [hs]
      refine Shape.intervalFromHigh?_eq_some_iff.trans ?_
      rw [show b + -1 * (k : Int) = b - k by ring]
      constructor
      · rintro ⟨h3, h4, rfl, -⟩; exact ⟨h3, h4, rfl⟩
      · rintro ⟨h3, h4, rfl⟩; exact ⟨h3, h4, rfl, Extended.negInf_le⟩

end Shapes

/-- **An open interval is an arithmetic sequence**, seen from a finite end. -/
theorem Valid.exists_halfOpen (h : d.Valid) (dir : Direction) (hi : d.isInterval = true)
    (ho : d.isOpen = true) (hfin : (d.startBound dir).isFinite = true) :
    ∃ e s, d.HalfOpen dir e s := by
  rcases h.interval_cases hi ho with ⟨a, hs⟩ | ⟨b, hs⟩ | hs
  · exact ⟨a, 1, h.halfOpen_of_low hfin hs⟩
  · exact ⟨b, -1, h.halfOpen_of_high hfin hs⟩
  · rw [startBound_eq_scale] at hfin
    have hfin' := Extended.isFinite_of_isFinite_scale hfin
    simp only [hs, Shape.lower, Shape.upper] at hfin'
    cases hdir : d.shapeDirection dir <;> simp [hdir] at hfin'

namespace HalfOpen

variable {e s : Int} (h : d.HalfOpen dir e s) (hm : d.multiplier ≠ 0)
include h hm

theorem precedes {j : Nat} (hjk : j < k) :
    dir.Precedes ((e + s * j) * d.multiplier) ((e + s * k) * d.multiplier) := by
  have hdist : (e + s * k) * d.multiplier - (e + s * j) * d.multiplier =
      s * d.multiplier * (k - j) := by ring
  have hlt : (0 : Int) < k - j := by omega
  have hs : s ≠ 0 := by rcases h.sign with rfl | rfl <;> decide
  have hne : s * d.multiplier ≠ 0 := mul_ne_zero hs hm
  rw [← h.direction]
  unfold Direction.ofStep
  split_ifs with h1
  · have := mul_pos h1 hlt
    simp only [Direction.Precedes]; omega
  · have hneg : s * d.multiplier < 0 := by omega
    have := mul_neg_of_neg_of_pos hneg hlt
    simp only [Direction.Precedes]; omega

/-- An arithmetic sequence leaves the range after fewer than `2 ^ 65` places. -/
theorem lt_of_fits (hfits : Word.Fits ((e + s * k) * d.multiplier)) : k < 36893488147419103232 := by
  have hdist : (e + s * k) * d.multiplier = e * d.multiplier + s * d.multiplier * k := by ring
  have habs : (s * d.multiplier).natAbs = d.multiplier.natAbs := by
    rcases h.sign with rfl | rfl <;> simp
  have h1 := Word.natAbs_le_of_fits hfits
  have h2 := Word.natAbs_le_of_fits h.fits_mul
  have h3 : k ≤ (s * d.multiplier * k).natAbs := by
    rw [Int.natAbs_mul, habs, Int.natAbs_natCast]
    exact Nat.le_mul_of_pos_left k (Int.natAbs_pos.mpr hm)
  omega

/-- A step of width one does not reach the number whose opposite does not fit. -/
theorem fits_succ (hsmall : ((e + s * k) * d.multiplier).natAbs < 9223372036854775807) :
    Word.Fits (e + s * (k + 1 : Nat)) := by
  have h1 : (e + s * k).natAbs ≤ ((e + s * k) * d.multiplier).natAbs := by
    rw [Int.natAbs_mul]; exact Nat.le_mul_of_pos_right _ (Int.natAbs_pos.mpr hm)
  have h2 : (e + s * (k + 1 : Nat)).natAbs ≤ (e + s * k).natAbs + 1 := by
    push_cast
    rcases h.sign with rfl | rfl <;> omega
  exact Word.fits_of_natAbs_lt (by omega)

theorem sequence :
    d.Sequence dir 36893488147419103232 fun k => (e + s * k) * d.multiplier where
  pos := by omega
  start_eq := by simpa using h.start_eq
  precedes := fun hjk _ => h.precedes hm hjk
  mem := fun _ => h.mem_iff.mpr ⟨_, rfl⟩
  exists_of_mem := by
    intro u hu hfits
    obtain ⟨k, rfl⟩ := h.mem_iff.mp hu
    exact ⟨k, h.lt_of_fits hm hfits, rfl⟩
  of_at := by
    intro k u hu
    obtain ⟨h1, -, h2, rfl⟩ := h.at_iff.mp hu
    exact ⟨by omega, rfl, h2⟩
  at_zero := by
    rw [h.at_iff]
    simpa using ⟨h.fits, h.fits_mul⟩
  at_succ := fun _ hsmall _ hk hfits => h.at_iff.mpr ⟨hk, h.fits_succ hm hsmall, hfits, rfl⟩

end HalfOpen

/-- **The values from a finite end on.** -/
theorem Valid.exists_sequence (h : d.Valid) (hd : d.isOpen = false ∨ d.isInterval = true)
    (hfin : (d.startBound dir).isFinite = true) : ∃ n v, d.Sequence dir n v := by
  by_cases ho : d.isOpen = false
  · obtain ⟨n, g, hg⟩ := h.exists_enumeration ho
    exact ⟨n, hg.sequence dir⟩
  · obtain ⟨e, s, hes⟩ := h.exists_halfOpen dir (hd.resolve_left ho) (by simpa using ho) hfin
    exact ⟨_, _, hes.sequence h.multiplier_ne_zero⟩

/-! ### Bounds of valid domains -/

/-- The bounds of a domain that can be summed are on the right side. -/
structure Bounded (d : Domain) : Prop where
  lower_ne : d.lower ≠ .posInf
  upper_ne : d.upper ≠ .negInf
  le : d.lower ≤ d.upper
  fits_lower : d.lower.Fits
  fits_upper : d.upper.Fits

theorem Valid.bounded (h : d.Valid) (hd : d.isOpen = false ∨ d.isInterval = true) :
    d.Bounded := by
  by_cases ho : d.isOpen = false
  · obtain ⟨n, g, hg⟩ := h.exists_enumeration ho
    have hpos := hg.pos
    refine ⟨?_, ?_, ?_, ?_, ?_⟩
    all_goals simp only [hg.lower_eq, hg.upper_eq, ne_eq, reduceCtorEq, not_false_eq_true,
      Extended.fin_le_fin, Extended.fits_fin_iff]
    · exact hg.mono (Nat.zero_le _) (by omega)
    · exact hg.fits hpos
    · exact hg.fits (by omega)
  · have h1 := h.lower
    have h2 := h.upper
    have key : ∀ {c : Int}, (Extended.fin c).scale? d.multiplier ≠ none →
        (Extended.fin c).scale d.multiplier = .fin (c * d.multiplier) ∧
          Word.Fits (c * d.multiplier) := fun hc =>
      have hfits := Extended.scale?_fin_ne_none_iff.mp hc
      ⟨Extended.scale_fin_of_fits hfits, hfits⟩
    rcases h.interval_cases (hd.resolve_left ho) (by simpa using ho) with ⟨a, hs⟩ | ⟨b, hs⟩ | hs
    · rw [hs] at h1
      obtain ⟨h3, h4⟩ := key h1
      by_cases hm : 0 < d.multiplier <;>
        constructor <;> simp [Domain.lower, Domain.upper, hs, hm, Shape.lower, Shape.upper,
          -Extended.scale_fin, h3, h4]
    · rw [hs] at h2
      obtain ⟨h3, h4⟩ := key h2
      by_cases hm : 0 < d.multiplier <;>
        constructor <;> simp [Domain.lower, Domain.upper, hs, hm, Shape.lower, Shape.upper,
          -Extended.scale_fin, h3, h4]
    · by_cases hm : 0 < d.multiplier <;>
        constructor <;> simp [Domain.lower, Domain.upper, hs, hm, Shape.lower, Shape.upper]

end Domain

end ThresholdEncoding
