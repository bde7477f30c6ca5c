import ThresholdEncoding.Proofs.Domain.Search

/-!
# Looking values up at their ranks

Where neighbouring values have a known distance, ranks and membership are computed by a formula with
exact numbers, while the look-up by position adds inside the 64 bit range. So a value may have a rank
at which it cannot be looked up: one that is too large, or at which the function of an open image
cannot be computed. These are the only exceptions. Elsewhere membership is decided by the look-up
itself.

* `Addressable`: the look-up by position can get to a position.
* `LooksUp`, `Valid.looksUp`: the look-up on a grid.
* `Valid.contains_lookUp`: the exact condition under which a value is found at its rank.
* `contains_not_found`: a value that is not.
-/

namespace ThresholdEncoding.Domain

open Direction

variable {d : Domain} {k n : Nat} {v lo s : Int} {g : Nat → Int}

/-- The look-up by position can get to a position: it is a number of the range, and so is the index
at which the function of an open image is to be computed. -/
structure Addressable (d : Domain) (k : Nat) : Prop where
  position : Word.Fits k
  image : ∀ f lo, d.shape = .image f lo .posInf → Word.Fits (lo + k) ∧ f.value? (lo + k) ≠ none

/-- The look-up on a grid: a position gives the point of the grid if it is addressable, and nothing
otherwise. -/
structure LooksUp (d : Domain) (k : Nat) (v : Int) : Prop where
  size : ∀ n, d.size? = some n → k ≤ n
  found : d.Addressable k → d.ascending? k = some v
  lost : ¬ d.Addressable k → d.ascending? k = none

/-! ### Closed domains -/

/-- Only lists have fewer positions than the range, and they have no grid. -/
theorem reach_of_step? (hstep : d.step? = some s) : d.shape.reach = 9223372036854775808 := by
  obtain ⟨w, hw, -⟩ := exists_step_of_step? hstep
  cases hs : d.shape with
  | listed l => rw [hs] at hw; cases hw
  | interval lo hi => rfl
  | intervalWithZero lo hi => rfl
  | image f lo hi => rfl

/-- The image of a closed domain is not open. -/
theorem ne_image_of_closed (h : d.Valid) (hc : d.isOpen = false) (f : MonotoneFn) (lo : Int) :
    d.shape ≠ .image f lo .posInf := by
  intro hs
  have := h.closed hc
  rw [hs] at this
  obtain ⟨b, hb, -⟩ := this
  cases hb

theorem looksUp_of_closed (h : d.Valid) (hc : d.isOpen = false) (hlow : d.lower = .fin lo)
    (hstep : d.step? = some s) (hv : v = lo + s * k) (hup : .fin v ≤ d.upper) : d.LooksUp k v := by
  obtain ⟨n, g, hg⟩ := h.exists_enumeration hc
  obtain ⟨hs, hgrid⟩ := hg.step_eq hstep
  have hpos := hg.pos
  rw [hg.lower_eq, Extended.fin.injEq] at hlow
  rw [hg.upper_eq, Extended.fin_le_fin, hgrid (n - 1) (by omega)] at hup
  have hk : k < n := by
    by_contra hge
    have : s * ((n - 1 : Nat) + 1 : Int) ≤ s * k := mul_le_mul_of_nonneg_left (by omega) hs.le
    rw [mul_add, mul_one] at this
    omega
  have hval : g k = v := by rw [hgrid k hk, hlow, hv]
  refine ⟨fun m hm => by rw [hg.size_limit hm]; exact hk.le, fun ha => ?_, fun ha => ?_⟩
  · rw [← hval]
    exact hg.ascending_eq hk (Word.lt_of_fits_natCast ha.position)
  · rw [Option.eq_none_iff_forall_ne_some]
    intro u hu
    obtain ⟨-, hreach, -⟩ := hg.ascending_iff.mp hu
    rw [reach_of_step? hstep] at hreach
    exact ha ⟨Word.fits_natCast_iff.mpr hreach, fun f lo hf => absurd hf (ne_image_of_closed h hc f lo)⟩

/-! ### Open intervals -/

/-- A factor of a number of the range fits, unless it is the opposite of the least number. -/
theorem fits_of_fits_mul {x m : Int} (hm : m ≠ 0) (hx : x ≤ Word.greatest) (h : Word.Fits (x * m)) :
    Word.Fits x := by
  have h1 := Word.natAbs_le_of_fits h
  have h2 : x.natAbs ≤ (x * m).natAbs := by
    rw [Int.natAbs_mul]
    exact Nat.le_mul_of_pos_right _ (Int.natAbs_pos.mpr hm)
  unfold Word.greatest at hx
  rw [Word.fits_iff]
  omega

/-- Along an arithmetic sequence all positions of the range are looked up. -/
theorem HalfOpen.looksUp {e c : Int} (hes : d.HalfOpen .ascending e c) (hm : d.multiplier ≠ 0)
    (hsize : d.size? = none) (hshape : ∀ f lo, d.shape ≠ .image f lo .posInf) (hv : Word.Fits v)
    (hgrid : v = e * d.multiplier + d.multiplier.natAbs * k) : d.LooksUp k v := by
  have hdir := hes.direction
  unfold Direction.ofStep at hdir
  split_ifs at hdir with hpos
  have hstep : (d.multiplier.natAbs : Int) = c * d.multiplier := by
    rcases hes.sign with rfl | rfl <;> omega
  have hval : (e + c * k) * d.multiplier = v := by rw [hgrid, hstep]; ring
  have hfits : Word.Fits (e + c * k) := by
    refine fits_of_fits_mul hm (not_lt.mp fun hlt => ?_) (hval ▸ hv)
    have he := hes.fits
    rw [Word.fits_iff] at he hv
    unfold Word.greatest at hlt
    rcases hes.sign with rfl | rfl
    · have hm1 : 1 ≤ d.multiplier := by omega
      nlinarith
    · omega
  refine ⟨fun n hn => (by rw [hsize] at hn; cases hn), fun ha => ?_, fun ha => ?_⟩
  · exact hes.at_iff.mpr ⟨Word.lt_of_fits_natCast ha.position, hfits, hval ▸ hv, hval⟩
  · rw [Option.eq_none_iff_forall_ne_some]
    intro u hu
    exact ha ⟨Word.fits_natCast_iff.mpr (hes.at_iff.mp hu).1, fun f lo hf => absurd hf (hshape f lo)⟩

theorem looksUp_of_interval (h : d.Valid) (hi : d.isInterval = true) (ho : d.isOpen = true)
    (hlow : d.lower = .fin lo) (hstep : d.step? = some s) (hv : Word.Fits v)
    (hgrid : v = lo + s * k) : d.LooksUp k v := by
  obtain ⟨e, c, hes⟩ := h.exists_halfOpen .ascending hi ho (by rw [startBound, hlow]; rfl)
  rw [step?_of_isInterval hi h.fits, Word.check?_eq_some_iff] at hstep
  have hstart : d.lower = _ := hes.start_eq
  rw [hlow, Extended.fin.injEq] at hstart
  refine hes.looksUp h.multiplier_ne_zero (size?_of_isOpen h hi ho) ?_ hv ?_
  · rintro f lo hs
    simp [isInterval, hs] at hi
  · rw [hgrid, hstart, hstep.1]

section WithZero
variable {a b : Extended} {m : Int}
variable (hp : Shape.zeroPrecedes a = false) (hf : Shape.zeroFollows b = false)
include hp hf

/-- Around `0` the look-up is that of the interval. -/
theorem at?_intervalWithZero_of_between (dir : Direction) (k : Nat) :
    (⟨.intervalWithZero a b, m⟩ : Domain).at? dir k = (⟨.interval a b, m⟩ : Domain).at? dir k := by
  have hat : (Shape.intervalWithZero a b).at? = (Shape.interval a b).at? := by
    funext dir k
    cases dir with
    | ascending =>
      simp only [Shape.at?, Shape.fromLow?, Shape.intervalFromLow?, hp, hf, Bool.false_eq_true,
        if_false, false_and]
      rfl
    | descending =>
      simp only [Shape.at?, Shape.fromHigh?, Shape.intervalFromHigh?, hp, hf, Bool.false_eq_true,
        if_false, false_and]
      rfl
  simp only [at?, hat]
  rfl

theorem startBound_intervalWithZero_of_between :
    (⟨.intervalWithZero a b, m⟩ : Domain).startBound = (⟨.interval a b, m⟩ : Domain).startBound := by
  funext dir
  cases dir <;> simp [startBound, Domain.lower, Domain.upper, Shape.lower, Shape.upper, hp, hf]

theorem size?_intervalWithZero_of_between :
    (⟨.intervalWithZero a b, m⟩ : Domain).size? = (⟨.interval a b, m⟩ : Domain).size? := by
  simp [size?, Shape.size?, hp, hf]

theorem valid_interval_of_between (h : (⟨.intervalWithZero a b, m⟩ : Domain).Valid) :
    (⟨.interval a b, m⟩ : Domain).Valid := by
  obtain ⟨h1, h2⟩ := requireValues_eq_ok_iff.mp h.hasValues
  have h3 := h.lower
  have h4 := h.upper
  simp only [Shape.lower, Shape.upper, Shape.size?, hp, hf, Bool.false_eq_true, if_false,
    Bool.or_self, Option.bind_fun_some] at h2 h3 h4
  exact ⟨⟨h.shape, h.fits, h.multiplier_ne_zero, h3, h4⟩, requireValues_eq_ok_iff.mpr ⟨h1, h2⟩⟩

end WithZero

theorem looksUp_of_intervalWithZero {a b : Extended} {m : Int}
    (h : (⟨.intervalWithZero a b, m⟩ : Domain).Valid)
    (ho : (⟨.intervalWithZero a b, m⟩ : Domain).isOpen = true)
    (hlow : (⟨.intervalWithZero a b, m⟩ : Domain).lower = .fin lo)
    (hstep : (⟨.intervalWithZero a b, m⟩ : Domain).step? = some s) (hv : Word.Fits v)
    (hgrid : v = lo + s * k) : (⟨.intervalWithZero a b, m⟩ : Domain).LooksUp k v := by
  obtain ⟨hp, hf⟩ : Shape.zeroPrecedes a = false ∧ Shape.zeroFollows b = false := by
    obtain ⟨w, hw, -⟩ := exists_step_of_step? hstep
    simp only [Shape.step?, Bool.or_eq_true, Option.ite_none_left_eq_some, not_or,
      Bool.not_eq_true] at hw
    exact hw.1
  have hstart := startBound_intervalWithZero_of_between hp hf (m := m)
  have hlow' : (⟨.interval a b, m⟩ : Domain).lower = .fin lo :=
    (congrFun hstart .ascending).symm.trans hlow
  have hopen : (⟨.interval a b, m⟩ : Domain).isOpen = true := by
    rw [← ho]
    exact congrArg (fun f : Direction → Extended => !(f .ascending).isFinite ||
      !(f .descending).isFinite) hstart.symm
  have hstep' : (⟨.interval a b, m⟩ : Domain).step? = some s := by
    simpa [step?, Shape.step?, hp, hf] using hstep
  obtain ⟨h1, h2, h3⟩ :=
    looksUp_of_interval (valid_interval_of_between hp hf h) rfl hopen hlow' hstep' hv hgrid
  have haddr : (⟨.intervalWithZero a b, m⟩ : Domain).Addressable k ↔
      (⟨.interval a b, m⟩ : Domain).Addressable k :=
    ⟨fun h => ⟨h.1, by rintro _ _ ⟨⟩⟩, fun h => ⟨h.1, by rintro _ _ ⟨⟩⟩⟩
  refine ⟨?_, ?_, ?_⟩
  · rwa [size?_intervalWithZero_of_between hp hf]
  · rwa [haddr, ascending?, at?_intervalWithZero_of_between hp hf]
  · rwa [haddr, ascending?, at?_intervalWithZero_of_between hp hf]

/-! ### Open images -/

section Image
variable {f : MonotoneFn} {a m : Int}

/-- An open image has a lower bound if its values rise from the first index on. -/
theorem rises_eq_of_lower (h : (⟨.image f a .posInf, m⟩ : Domain).Valid)
    (hlow : (⟨.image f a .posInf, m⟩ : Domain).lower = .fin lo) :
    Shape.rises f a .posInf = decide (0 < m) ∧ lo = f.value a * m := by
  obtain ⟨-, -, -, -, hval, -⟩ := h.shape
  have hm := h.multiplier_ne_zero
  have h1 := h.lower
  have h2 := h.upper
  simp only [Domain.lower, Shape.lower, Shape.upper] at hlow h1 h2
  cases hr : Shape.rises f a .posInf <;> by_cases hpos : 0 < m
  · simp [hr, hpos, Shape.endValue] at hlow
  · simp only [hr, hpos, Bool.false_eq_true, if_false, Shape.endValue_fin hval] at hlow h2 ⊢
    rw [Extended.scale_fin_of_fits (Extended.scale?_fin_ne_none_iff.mp h2)] at hlow
    simpa using (Extended.fin.inj hlow).symm
  · simp only [hr, hpos, if_true, Shape.endValue_fin hval] at hlow h1 ⊢
    rw [Extended.scale_fin_of_fits (Extended.scale?_fin_ne_none_iff.mp h1)] at hlow
    simpa using (Extended.fin.inj hlow).symm
  · simp [hr, hpos, Shape.endValue] at hlow

/-- The look-up of an open image with a lower bound counts indices from the first one on. -/
theorem ascending?_image_eq_some_iff (hr : Shape.rises f a .posInf = decide (0 < m)) {u : Int} :
    (⟨.image f a .posInf, m⟩ : Domain).ascending? k = some u ↔ k < 9223372036854775808 ∧
      Word.Fits (a + k) ∧ ∃ x, f.value? (a + k) = some x ∧ x * m = u ∧ Word.Fits u := by
  have hat : (Shape.image f a .posInf).at?
      ((⟨.image f a .posInf, m⟩ : Domain).shapeDirection .ascending) k =
        (Shape.intervalFromLow? (.fin a) .posInf k).bind f.value? := by
    unfold shapeDirection
    split_ifs with hpos
    · simp [Shape.at?, Shape.fromLow?, hr, hpos]
    · simp [Shape.at?, Shape.fromHigh?, Direction.reverse, hr, hpos]
  rw [ascending?, at?_eq_some_iff, hat]
  simp only [Option.bind_eq_some_iff, Shape.intervalFromLow?_eq_some_iff, Extended.le_posInf,
    and_true]
  constructor
  · rintro ⟨x, ⟨_, ⟨h1, h2, rfl⟩, h3⟩, h4⟩; exact ⟨h1, h2, x, h3, h4⟩
  · rintro ⟨h1, h2, x, h3, h4⟩; exact ⟨x, ⟨_, ⟨h1, h2, rfl⟩, h3⟩, h4⟩

theorem looksUp_of_openImage (h : (⟨.image f a .posInf, m⟩ : Domain).Valid)
    (hlow : (⟨.image f a .posInf, m⟩ : Domain).lower = .fin lo)
    (hstep : (⟨.image f a .posInf, m⟩ : Domain).step? = some s) (hv : Word.Fits v)
    (hgrid : v = lo + s * k) : (⟨.image f a .posInf, m⟩ : Domain).LooksUp k v := by
  obtain ⟨hr, rfl⟩ := rises_eq_of_lower h hlow
  obtain ⟨w, hw, rfl⟩ := exists_step_of_step? hstep
  have hmult : m ≠ 0 := h.multiplier_ne_zero
  have hne : w ≠ Word.least := shape_step?_ne_least hmult hstep hw
  obtain ⟨p, o, rfl⟩ : ∃ p o, f = .affine p o := by
    cases f with
    | affine p o => exact ⟨p, o, rfl⟩
    | power e c => cases hw
    | exponential b c => cases hw
  obtain rfl : Word.wrap p.natAbs = w := Option.some.inj hw
  have hfits : Word.Fits p := h.shape.1.1.1
  rw [Word.wrap_natAbs hfits hne] at hgrid
  have hp : p ≠ 0 := by rintro rfl; exact h.shape.2.2.2.1 rfl
  -- slope and multiplier have the same sign
  have hsign : ((p.natAbs * m).natAbs : Int) = p * m := by
    have hpos : 0 < p ↔ 0 < m := by
      simp only [Shape.rises, MonotoneFn.direction?, if_neg hp, Direction.ofStep,
        decide_eq_decide] at hr
      rw [← hr]
      split_ifs <;> simp_all
    rw [Int.natAbs_mul, Int.natAbs_natCast, Nat.cast_mul]
    rcases lt_or_gt_of_ne hp with hneg | hpos'
    · have : m < 0 := by omega
      rw [Int.ofNat_natAbs_of_nonpos hneg.le, Int.ofNat_natAbs_of_nonpos this.le, neg_mul_neg]
    · rw [Int.natAbs_of_nonneg hpos'.le, Int.natAbs_of_nonneg (hpos.mp hpos').le]
  have hval : ∀ x, (MonotoneFn.affine p o).value? (a + k) = some x → x * m = v := by
    intro x hx
    obtain ⟨rfl, -⟩ := MonotoneFn.value?_eq_some hx
    rw [hgrid, hsign]
    simp only [MonotoneFn.value]
    ring
  refine ⟨fun n hn => (by cases hn), fun ha => ?_, fun ha => ?_⟩
  · obtain ⟨h1, h2⟩ := ha.image _ _ rfl
    obtain ⟨x, hx⟩ := Option.ne_none_iff_exists'.mp h2
    exact (ascending?_image_eq_some_iff hr).mpr
      ⟨Word.lt_of_fits_natCast ha.position, h1, x, hx, hval x hx, hv⟩
  · rw [Option.eq_none_iff_forall_ne_some]
    intro u hu
    obtain ⟨h1, h2, x, hx, -⟩ := (ascending?_image_eq_some_iff hr).mp hu
    refine ha ⟨Word.fits_natCast_iff.mpr h1, ?_⟩
    rintro _ _ ⟨⟩
    exact ⟨h2, by rw [hx]; exact Option.some_ne_none x⟩

end Image

/-! ### Ranks and look-up -/

/-- **The look-up on a grid**: a position gives the point of the grid if it is addressable, and
nothing otherwise. -/
theorem Valid.looksUp (h : d.Valid) (hlow : d.lower = .fin lo) (hstep : d.step? = some s)
    (hv : Word.Fits v) (hgrid : v = lo + s * k) (hup : .fin v ≤ d.upper) : d.LooksUp k v := by
  cases ho : d.isOpen with
  | false => exact looksUp_of_closed h ho hlow hstep hgrid hup
  | true =>
    obtain ⟨shape, m⟩ := d
    cases shape with
    | interval a b => exact looksUp_of_interval h rfl ho hlow hstep hv hgrid
    | intervalWithZero a b => exact looksUp_of_intervalWithZero h ho hlow hstep hv hgrid
    | listed l =>
      obtain ⟨w, hw, -⟩ := exists_step_of_step? hstep
      cases hw
    | image f a b =>
      obtain ⟨-, hne, hle, -⟩ := h.shape
      cases b with
      | negInf => exact absurd rfl hne
      | posInf => exact looksUp_of_openImage h hlow hstep hv hgrid
      | fin b =>
        obtain ⟨n, g, hg⟩ := Shape.exists_enumeration h.shape ⟨b, rfl, Extended.fin_le_fin.mp hle⟩
        obtain ⟨g', hg'⟩ := h.toWellFormed.exists_enumeration hg
        rw [hg'.isOpen_eq] at ho
        cases ho

/-- The rank of a point of the grid is its number. -/
theorem rank_of_grid (hlow : d.lower = .fin lo) (hstep : d.step? = some s) (hs : 0 < s)
    (hgrid : v = lo + s * k) (hsize : ∀ n, d.size? = some n → k ≤ n) : d.rank v = .ok k := by
  have hmul : 0 ≤ s * k := mul_nonneg hs.le (Int.natCast_nonneg k)
  have hquot : ((v - lo + s - 1) / s).toNat = k := by
    have h1 : v - lo + s - 1 = s - 1 + s * k := by rw [hgrid]; ring
    rw [h1, Int.add_mul_ediv_left _ _ hs.ne', Int.ediv_eq_zero_of_lt (by omega) (by omega)]
    simp
  unfold rank
  simp only [hlow, hstep, hquot]
  split_ifs with hle
  · have hzero : s * (k : Int) = 0 := by omega
    rcases mul_eq_zero.mp hzero with h0 | h0
    · omega
    · rw [Int.natCast_eq_zero.mp h0]
  · cases hn : d.size? with
    | none => rfl
    | some n => simp only [min_eq_left (hsize n hn)]

/-- A contained number is a point of the grid that is not above the upper bound. -/
theorem exists_grid_of_contains {c : Int} (hg : d.OnGrid s c) (hlow : d.lower = .fin lo)
    (hc : d.contains v = true) : .fin v ≤ d.upper ∧ ∃ k : Nat, v = lo + s * k := by
  have hround := contains_iff.mp hc
  have hup := le_upper_of_roundUp hround
  obtain ⟨w, hleast, hw⟩ := hg.exists_roundUp hup
  obtain rfl := eq_of_checked (hw.symm.trans hround)
  obtain ⟨k, hk⟩ := hg.exists_index hlow hleast.1.1
  exact ⟨hup, k, hk.symm⟩

/-- Without a grid a contained value is found where it is looked for. -/
theorem exists_rank_of_contains (hlow : d.lower.isFinite = true) (hstep : d.step? = none)
    (hc : d.contains v = true) : ∃ k, d.rank v = .ok k ∧ d.ascending? k = some v := by
  have hround := contains_iff.mp hc
  unfold roundUp at hround
  simp only [hstep, hlow, if_true] at hround
  split_ifs at hround
  obtain ⟨k, hk, hround⟩ := Except.bind_eq_ok_iff.mp hround
  refine ⟨k, hk, ?_⟩
  split at hround
  · next w hw => rw [hw, Except.ok.inj hround]
  · cases hround

/-- **The exact condition under which a value is found at its rank.** A contained value has a rank.
Unless neighbouring values have a known distance, the value is at this position. If they have, it is
there if the position is addressable; otherwise nothing is found there. -/
theorem Valid.contains_lookUp (h : d.Valid) (hlow : d.lower.isFinite = true) (hv : Word.Fits v)
    (hc : d.contains v = true) : ∃ k, d.rank v = .ok k ∧
      (d.step? = none ∨ d.Addressable k → d.ascending? k = some v) ∧
      (¬ (d.step? = none ∨ d.Addressable k) → d.ascending? k = none) := by
  cases hstep : d.step? with
  | none =>
    obtain ⟨k, hrank, hat⟩ := exists_rank_of_contains hlow hstep hc
    exact ⟨k, hrank, fun _ => hat, fun hn => absurd (Or.inl rfl) hn⟩
  | some s =>
    obtain ⟨lo, hlo⟩ := Extended.isFinite_iff.mp hlow
    obtain ⟨c, hg⟩ := h.exists_onGrid hstep
    have hs := hg.pos
    obtain ⟨hup, k, hgrid⟩ := exists_grid_of_contains hg hlo hc
    have hlook := h.looksUp hlo hstep hv hgrid hup
    refine ⟨k, rank_of_grid hlo hstep hs hgrid hlook.size, ?_, ?_⟩
    · simpa using hlook.found
    · simpa using hlook.lost

/-- The integers of the range. -/
def allWords : Domain := .interval (.fin Word.least) (.fin Word.greatest)

/-- The even numbers from `0` on, as an image whose slope times index is out of range before the
value is. -/
def shiftedEvens : Domain := { shape := .image (.affine 2 (-4611686018427387904)) 0 .posInf }

/-- The last value that is found at its rank, and the first one that is not. -/
theorem contains_lookUp_words :
    (∃ k, allWords.rank (-1) = .ok k ∧ allWords.ascending? k = some (-1)) ∧
      ∃ k, allWords.rank 0 = .ok k ∧ allWords.ascending? k = none := by
  have hvalid : allWords.Valid := by decide
  obtain ⟨k, hk, hfound, -⟩ := hvalid.contains_lookUp (v := -1) rfl (by decide) rfl
  obtain ⟨l, hl, -, hlost⟩ := hvalid.contains_lookUp (v := 0) rfl (by decide) rfl
  refine ⟨⟨k, hk, hfound (Or.inr ⟨?_, by rintro _ _ ⟨⟩⟩)⟩, l, hl, hlost ?_⟩
  · obtain rfl : 9223372036854775807 = k := Except.ok.inj hk
    decide
  · obtain rfl : 9223372036854775808 = l := Except.ok.inj hl
    rintro (hstep | haddr)
    · cases hstep
    · exact absurd haddr.position (by decide)

/-- **A contained value may not be found at its rank**, as the position is too large or as the
function cannot be computed there. -/
theorem contains_not_found :
    (allWords.Valid ∧ allWords.contains 0 = true ∧ allWords.rank 0 = .ok 9223372036854775808 ∧
      allWords.ascending? 9223372036854775808 = none) ∧
    (shiftedEvens.Valid ∧ shiftedEvens.contains 4611686018427387904 = true ∧
      shiftedEvens.rank 4611686018427387904 = .ok 4611686018427387904 ∧
      shiftedEvens.ascending? 4611686018427387904 = none) :=
  ⟨⟨by decide, rfl, rfl, rfl⟩, by decide, rfl, rfl, rfl⟩

end ThresholdEncoding.Domain
