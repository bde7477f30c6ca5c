import ThresholdEncoding.Proofs.Domain.WellFormed

/-!
# The values of a closed domain by position

A closed shape has finitely many members `g 0 < g 1 < … < g (n - 1)`, and both ways to address a
position find them: `fromLow?` gives `g k` and `fromHigh?` gives `g (n - 1 - k)`, for positions that
can be addressed at all (`Shape.reach`). The same holds for a domain, whose multiplier may turn the
order around.

* `Shape.exists_enumeration`, `Domain.exists_enumeration`: every valid closed domain is enumerated.
* `Domain.Enumeration.mem_valuesFrom_iff`: listing the values lists the enumeration.
-/

namespace ThresholdEncoding

/-- `g` gives the `n` members of a shape by position. -/
structure Shape.Enumeration (s : Shape) (n : Nat) (g : Nat → Int) : Prop where
  pos : 0 < n
  strict : ∀ {j k}, j < k → k < n → g j < g k
  fits : ∀ {k}, k < n → Word.Fits (g k)
  mem_iff : ∀ {v}, v ∈ s ↔ ∃ k < n, g k = v
  lower_eq : s.lower = .fin (g 0)
  upper_eq : s.upper = .fin (g (n - 1))
  size_eq : n < Word.positionLimit → s.size? = some n
  size_limit : ∀ {m}, s.size? = some m → m = n
  lt_reach : ∀ {k}, k < n → k < 9223372036854775808 → k < s.reach
  fromLow_iff : ∀ {k v}, s.fromLow? k = some v ↔ k < n ∧ k < s.reach ∧ g k = v
  fromHigh_iff : ∀ {k v}, s.fromHigh? k = some v ↔ k < n ∧ k < s.reach ∧ g (n - 1 - k) = v
  step_eq : ∀ {w}, s.step? = some w → w ≠ Word.least → 0 < w ∧ ∀ k < n, g k = g 0 + w * k

theorem le_of_strict {n j k : Nat} {g : Nat → Int} (h : ∀ {j k}, j < k → k < n → g j < g k)
    (hjk : j ≤ k) (hk : k < n) : g j ≤ g k := by
  rcases hjk.eq_or_lt with rfl | hlt
  · exact le_refl _
  · exact (h hlt hk).le

theorem Shape.Enumeration.mono {s : Shape} {n j k : Nat} {g : Nat → Int} (h : s.Enumeration n g)
    (hjk : j ≤ k) (hk : k < n) : g j ≤ g k := le_of_strict h.strict hjk hk

namespace Shape

variable {a b v lo : Int} {k : Nat}

/-! ### Intervals -/

theorem intervalFromLow?_eq_some_iff {hi : Extended} :
    intervalFromLow? (.fin a) hi k = some v ↔
      k < 9223372036854775808 ∧ Word.Fits v ∧ v = a + k ∧ .fin v ≤ hi := by
  simp only [intervalFromLow?, Extended.finite?, Option.bind_some, Option.bind_eq_some_iff,
    Word.advance?_eq_some_iff, Word.fits_natCast_iff, atMost?, Option.ite_none_right_eq_some,
    Option.some.injEq]
  constructor
  · rintro ⟨_, ⟨h1, h2, h3⟩, h4, rfl⟩; exact ⟨h1, h2, h3, h4⟩
  · rintro ⟨h1, h2, h3, h4⟩; exact ⟨v, ⟨h1, h2, h3⟩, h4, rfl⟩

theorem intervalFromHigh?_eq_some_iff {lo : Extended} :
    intervalFromHigh? lo (.fin b) k = some v ↔
      k < 9223372036854775808 ∧ Word.Fits v ∧ v = b - k ∧ lo ≤ .fin v := by
  simp only [intervalFromHigh?, Extended.finite?, Option.bind_some, Option.bind_eq_some_iff,
    Word.retreat?_eq_some_iff, Word.fits_natCast_iff, atLeast?, Option.ite_none_right_eq_some,
    Option.some.injEq]
  constructor
  · rintro ⟨_, ⟨h1, h2, h3⟩, h4, rfl⟩; exact ⟨h1, h2, h3, h4⟩
  · rintro ⟨h1, h2, h3, h4⟩; exact ⟨v, ⟨h1, h2, h3⟩, h4, rfl⟩

theorem endsSpan?_fin (hab : a ≤ b) : endsSpan? (.fin a) (.fin b) =
    if (b - a).toNat + 1 < Word.positionLimit then some ((b - a).toNat + 1) else none := by
  simp only [endsSpan?, Extended.finite?, Option.bind_some, Word.span?]
  rw [if_neg (by omega)]

theorem endsSpan?_eq_some (hab : a ≤ b) (h : (b - a).toNat + 1 < Word.positionLimit) :
    endsSpan? (.fin a) (.fin b) = some ((b - a).toNat + 1) := by
  rw [endsSpan?_fin hab, if_pos h]

theorem eq_of_endsSpan?_eq_some {m : Nat} (hab : a ≤ b)
    (h : endsSpan? (.fin a) (.fin b) = some m) : m = (b - a).toNat + 1 := by
  rw [endsSpan?_fin hab] at h
  split_ifs at h
  exact (Option.some.inj h).symm

/-- The positions of an interval from below. -/
theorem intervalFromLow?_fin_iff (ha : Word.Fits a) (hb : Word.Fits b) (hab : a ≤ b) :
    intervalFromLow? (.fin a) (.fin b) k = some v ↔
      k < (b - a).toNat + 1 ∧ k < 9223372036854775808 ∧ a + k = v := by
  rw [intervalFromLow?_eq_some_iff, Extended.fin_le_fin]
  rw [Word.fits_iff] at *
  omega

/-- The positions of an interval from above. -/
theorem intervalFromHigh?_fin_iff (ha : Word.Fits a) (hb : Word.Fits b) (hab : a ≤ b) :
    intervalFromHigh? (.fin a) (.fin b) k = some v ↔
      k < (b - a).toNat + 1 ∧ k < 9223372036854775808 ∧ b - k = v := by
  rw [intervalFromHigh?_eq_some_iff, Extended.fin_le_fin]
  rw [Word.fits_iff] at *
  omega

theorem enumeration_interval (ha : Word.Fits a) (hb : Word.Fits b) (hab : a ≤ b) :
    (interval (.fin a) (.fin b)).Enumeration ((b - a).toNat + 1) (fun k => a + k) where
  pos := by omega
  strict := by intros; omega
  fits := by intro k hk; rw [Word.fits_iff] at *; omega
  mem_iff := by
    intro v
    rw [mem_interval_iff, Extended.fin_le_fin, Extended.fin_le_fin]
    constructor
    · rintro ⟨h1, h2⟩; exact ⟨(v - a).toNat, by omega, by omega⟩
    · rintro ⟨k, hk, rfl⟩; omega
  lower_eq := by simp [lower]
  upper_eq := by simp only [upper, Extended.fin.injEq]; omega
  size_eq := endsSpan?_eq_some hab
  size_limit := eq_of_endsSpan?_eq_some hab
  lt_reach := fun _ h => h
  fromLow_iff := intervalFromLow?_fin_iff ha hb hab
  fromHigh_iff := by
    intro k v
    refine (intervalFromHigh?_fin_iff ha hb hab).trans ?_
    simp only [reach]
    omega
  step_eq := by
    intro w hw _
    cases hw
    exact ⟨by omega, fun k _ => by omega⟩

/-! ### Intervals and zero -/

/-- Between the ends of the interval, `0` adds nothing. -/
theorem enumeration_intervalWithZero_of_between (ha : Word.Fits a) (hb : Word.Fits b)
    (h1 : a ≤ 0) (h2 : 0 ≤ b) : (intervalWithZero (.fin a) (.fin b)).Enumeration
      ((b - a).toNat + 1) (fun k => a + k) := by
  have hp : zeroPrecedes (.fin a) = false := by simp [zeroPrecedes, h1]
  have hf : zeroFollows (.fin b) = false := by simp [zeroFollows, h2]
  have h := enumeration_interval ha hb (by omega)
  have hsize : (intervalWithZero (.fin a) (.fin b)).size? = (interval (.fin a) (.fin b)).size? := by
    simp [size?, hp, hf]
  constructor
  case pos => exact h.pos
  case strict => exact h.strict
  case fits => exact h.fits
  case mem_iff =>
    intro v
    rw [← h.mem_iff, mem_intervalWithZero_iff, mem_interval_iff, Extended.fin_le_fin,
      Extended.fin_le_fin]
    omega
  case lower_eq =>
    rw [show (intervalWithZero (.fin a) (.fin b)).lower = .fin a by simp [lower, hp]]
    exact h.lower_eq
  case upper_eq =>
    rw [show (intervalWithZero (.fin a) (.fin b)).upper = .fin b by simp [upper, hf]]
    exact h.upper_eq
  case size_eq => rw [hsize]; exact h.size_eq
  case size_limit => rw [hsize]; exact h.size_limit
  case lt_reach => exact h.lt_reach
  case fromLow_iff =>
    intro k v
    have hk : (intervalWithZero (.fin a) (.fin b)).fromLow? k =
        intervalFromLow? (.fin a) (.fin b) k := by
      simp only [fromLow?, intervalFromLow?, hp, hf, Extended.finite?, Option.bind_some,
        Bool.false_eq_true, if_false, false_and]
      rfl
    rw [hk]
    exact h.fromLow_iff
  case fromHigh_iff =>
    intro k v
    have hk : (intervalWithZero (.fin a) (.fin b)).fromHigh? k =
        intervalFromHigh? (.fin a) (.fin b) k := by
      simp only [fromHigh?, intervalFromHigh?, hp, hf, Extended.finite?, Option.bind_some,
        Bool.false_eq_true, if_false, false_and]
      rfl
    rw [hk]
    exact h.fromHigh_iff
  case step_eq =>
    intro w hw
    simp only [step?, hp, hf, Bool.or_false, Bool.false_eq_true, if_false] at hw
    exact h.step_eq hw

/-- The number of members if `0` lies outside of the interval. -/
theorem size?_intervalWithZero_eq_some_iff (hab : a ≤ b)
    (h : (zeroPrecedes (.fin a) || zeroFollows (.fin b)) = true) {m : Nat} :
    (intervalWithZero (.fin a) (.fin b)).size? = some m ↔
      m = (b - a).toNat + 2 ∧ m < Word.positionLimit := by
  simp only [size?, h, if_true, countOneMore?, Option.bind_eq_some_iff,
    Option.ite_none_right_eq_some, Option.some.injEq]
  constructor
  · rintro ⟨n, h1, h2, rfl⟩
    exact ⟨by rw [eq_of_endsSpan?_eq_some hab h1], h2⟩
  · rintro ⟨rfl, h1⟩
    exact ⟨_, endsSpan?_eq_some hab (by omega), h1, rfl⟩

section Below
variable (ha : Word.Fits a) (hb : Word.Fits b) (hab : a ≤ b) (h0 : 0 < a)
include ha hb hab h0

theorem fromLow?_of_zeroPrecedes : (intervalWithZero (.fin a) (.fin b)).fromLow? k = some v ↔
    k < (b - a).toNat + 2 ∧ k < 9223372036854775808 ∧ (if k = 0 then 0 else a + k - 1) = v := by
  have hp : zeroPrecedes (.fin a) = true := by simp [zeroPrecedes, h0]
  simp only [fromLow?, hp, Extended.finite?, Option.bind_some, if_true]
  cases k with
  | zero => simp
  | succ k =>
    simp only [Word.fits_natCast_iff, Option.ite_none_right_eq_some,
      intervalFromLow?_fin_iff ha hb hab, Nat.succ_ne_zero, if_false]
    omega

theorem fromHigh?_of_zeroPrecedes : (intervalWithZero (.fin a) (.fin b)).fromHigh? k = some v ↔
    k < (b - a).toNat + 2 ∧ k < 9223372036854775808 ∧
      (if a ≤ b - k then b - k else 0) = v := by
  have hp : zeroPrecedes (.fin a) = true := by simp [zeroPrecedes, h0]
  have hf : zeroFollows (.fin b) = false := by simp [zeroFollows]; omega
  rw [Word.fits_iff] at ha hb
  have h1 : Extended.fin a + Extended.fin (-1) = Extended.fin (a + -1) := by
    rw [Extended.fin_add_fin, Extended.saturate_of_fits (by rw [Word.fits_iff]; omega)]
  simp only [fromHigh?, hp, hf, h1, Extended.finite?, Option.bind_some, Bool.false_eq_true,
    if_false, true_and, Extended.fin_le_fin, Extended.fin.injEq, Option.bind_eq_some_iff,
    Word.retreat?_eq_some_iff, Word.fits_natCast_iff]
  constructor
  · rintro ⟨w, ⟨h2, -, rfl⟩, h4⟩
    split_ifs at h4 ⊢ <;> cases h4 <;> omega
  · rintro ⟨h2, h3, rfl⟩
    refine ⟨b - k, ⟨h3, by rw [Word.fits_iff]; omega, rfl⟩, ?_⟩
    split_ifs <;> first | rfl | omega

theorem enumeration_intervalWithZero_of_pos :
    (intervalWithZero (.fin a) (.fin b)).Enumeration ((b - a).toNat + 2)
      (fun k => if k = 0 then 0 else a + k - 1) := by
  have hp : zeroPrecedes (.fin a) = true := by simp [zeroPrecedes, h0]
  have hf : zeroFollows (.fin b) = false := by simp [zeroFollows]; omega
  constructor
  case pos => omega
  case strict =>
    intro j k hjk hk
    split_ifs <;> omega
  case fits =>
    intro k hk
    rw [Word.fits_iff] at *
    split_ifs <;> omega
  case mem_iff =>
    intro v
    rw [mem_intervalWithZero_iff, Extended.fin_le_fin, Extended.fin_le_fin]
    constructor
    · rintro (rfl | ⟨h1, h2⟩)
      · exact ⟨0, by omega, if_pos rfl⟩
      · exact ⟨(v - a).toNat + 1, by omega, by rw [if_neg (by omega)]; omega⟩
    · rintro ⟨k, hk, rfl⟩
      split_ifs
      · exact Or.inl rfl
      · exact Or.inr (by omega)
  case lower_eq => simp [lower, hp]
  case upper_eq =>
    rw [upper, hf, if_neg (by decide), if_neg (by omega), Extended.fin.injEq]
    omega
  case size_eq =>
    intro hn
    exact (size?_intervalWithZero_eq_some_iff hab (by simp [hp])).mpr ⟨rfl, hn⟩
  case size_limit =>
    intro m hm
    exact ((size?_intervalWithZero_eq_some_iff hab (by simp [hp])).mp hm).1
  case lt_reach => exact fun _ h => h
  case fromLow_iff =>
    intro k v
    exact fromLow?_of_zeroPrecedes ha hb hab h0
  case fromHigh_iff =>
    intro k v
    rw [fromHigh?_of_zeroPrecedes ha hb hab h0]
    refine and_congr_right fun hk => and_congr_right fun _ => ?_
    split_ifs <;> omega
  case step_eq =>
    intro w hw
    simp [step?, hp] at hw

end Below

section Above
variable (ha : Word.Fits a) (hb : Word.Fits b) (hab : a ≤ b) (h0 : b < 0)
include ha hb hab h0

theorem fromLow?_of_zeroFollows : (intervalWithZero (.fin a) (.fin b)).fromLow? k = some v ↔
    k < (b - a).toNat + 2 ∧ k < 9223372036854775808 ∧
      (if a + k ≤ b then a + k else 0) = v := by
  have hp : zeroPrecedes (.fin a) = false := by simp [zeroPrecedes]; omega
  have hf : zeroFollows (.fin b) = true := by simp [zeroFollows, h0]
  rw [Word.fits_iff] at ha hb
  have h1 : Extended.fin b + Extended.fin 1 = Extended.fin (b + 1) := by
    rw [Extended.fin_add_fin, Extended.saturate_of_fits (by rw [Word.fits_iff]; omega)]
  simp only [fromLow?, hp, hf, h1, Extended.finite?, Option.bind_some, Bool.false_eq_true,
    if_false, true_and, Extended.fin_le_fin, Extended.fin.injEq, Option.bind_eq_some_iff,
    Word.advance?_eq_some_iff, Word.fits_natCast_iff]
  constructor
  · rintro ⟨w, ⟨h2, -, rfl⟩, h4⟩
    split_ifs at h4 ⊢ <;> cases h4 <;> omega
  · rintro ⟨h2, h3, rfl⟩
    refine ⟨a + k, ⟨h3, by rw [Word.fits_iff]; omega, rfl⟩, ?_⟩
    split_ifs <;> first | rfl | omega

theorem fromHigh?_of_zeroFollows : (intervalWithZero (.fin a) (.fin b)).fromHigh? k = some v ↔
    k < (b - a).toNat + 2 ∧ k < 9223372036854775808 ∧ (if k = 0 then 0 else b - k + 1) = v := by
  have hf : zeroFollows (.fin b) = true := by simp [zeroFollows, h0]
  simp only [fromHigh?, hf, Extended.finite?, Option.bind_some, if_true]
  cases k with
  | zero => simp
  | succ k =>
    simp only [Word.fits_natCast_iff, Option.ite_none_right_eq_some,
      intervalFromHigh?_fin_iff ha hb hab, Nat.succ_ne_zero, if_false]
    omega

theorem enumeration_intervalWithZero_of_neg :
    (intervalWithZero (.fin a) (.fin b)).Enumeration ((b - a).toNat + 2)
      (fun k => if a + k ≤ b then a + k else 0) := by
  have hp : zeroPrecedes (.fin a) = false := by simp [zeroPrecedes]; omega
  have hf : zeroFollows (.fin b) = true := by simp [zeroFollows, h0]
  constructor
  case pos => omega
  case strict =>
    intro j k hjk hk
    split_ifs <;> omega
  case fits =>
    intro k hk
    rw [Word.fits_iff] at *
    split_ifs <;> omega
  case mem_iff =>
    intro v
    rw [mem_intervalWithZero_iff, Extended.fin_le_fin, Extended.fin_le_fin]
    constructor
    · rintro (rfl | ⟨h1, h2⟩)
      · exact ⟨(b - a).toNat + 1, by omega, if_neg (by omega)⟩
      · exact ⟨(v - a).toNat, by omega, by rw [if_pos (by omega)]; omega⟩
    · rintro ⟨k, hk, rfl⟩
      split_ifs
      · exact Or.inr (by omega)
      · exact Or.inl rfl
  case lower_eq =>
    rw [lower, hp, if_neg (by decide), if_pos (by omega), Extended.fin.injEq]
    omega
  case upper_eq => rw [upper, hf, if_pos rfl, if_neg (by omega)]
  case size_eq =>
    intro hn
    exact (size?_intervalWithZero_eq_some_iff hab (by simp [hf])).mpr ⟨rfl, hn⟩
  case size_limit =>
    intro m hm
    exact ((size?_intervalWithZero_eq_some_iff hab (by simp [hf])).mp hm).1
  case lt_reach => exact fun _ h => h
  case fromLow_iff =>
    intro k v
    exact fromLow?_of_zeroFollows ha hb hab h0
  case fromHigh_iff =>
    intro k v
    rw [fromHigh?_of_zeroFollows ha hb hab h0]
    refine and_congr_right fun hk => and_congr_right fun _ => ?_
    split_ifs <;> omega
  case step_eq =>
    intro w hw
    simp [step?, hf] at hw

end Above

/-! ### Lists -/

theorem enumeration_listed {l : List Int} (h : (listed l).WellFormed) (hl : l ≠ []) :
    (listed l).Enumeration l.length (fun k => l.getD k 0) := by
  obtain ⟨hsorted, hfits⟩ := h
  have hpos := List.length_pos_of_ne_nil hl
  have hget : ∀ {k}, (hk : k < l.length) → l.getD k 0 = l[k] := fun hk => by
    rw [List.getD_eq_getElem?_getD, List.getElem?_eq_getElem hk]; rfl
  constructor
  case pos => exact hpos
  case strict =>
    intro j k hjk hk
    rw [hget hk, hget (by omega)]
    exact List.pairwise_iff_getElem.mp hsorted j k (by omega) hk hjk
  case fits =>
    intro k hk
    rw [hget hk]
    exact hfits _ (List.getElem_mem hk)
  case mem_iff =>
    intro v
    rw [mem_listed_iff, List.mem_iff_getElem]
    constructor
    · rintro ⟨k, hk, rfl⟩; exact ⟨k, hk, hget hk⟩
    · rintro ⟨k, hk, rfl⟩; exact ⟨k, hk, (hget hk).symm⟩
  case lower_eq => rw [lower, hget hpos, List.head?_eq_getElem?, List.getElem?_eq_getElem hpos]; rfl
  case upper_eq =>
    rw [upper, hget (by omega), List.getLast?_eq_getElem?, List.getElem?_eq_getElem (by omega)]
    rfl
  case size_eq => intro _; rfl
  case size_limit => intro m hm; exact (Option.some.inj hm).symm
  case lt_reach => exact fun h _ => h
  case fromLow_iff =>
    intro k v
    simp only [fromLow?, reach, List.getElem?_eq_some_iff]
    constructor
    · rintro ⟨hk, rfl⟩; exact ⟨hk, hk, hget hk⟩
    · rintro ⟨hk, -, rfl⟩; exact ⟨hk, (hget hk).symm⟩
  case fromHigh_iff =>
    intro k v
    simp only [fromHigh?, reach, Option.ite_none_right_eq_some, List.getElem?_eq_some_iff]
    have hsub : l.length - (k + 1) = l.length - 1 - k := by omega
    rw [hsub]
    constructor
    · rintro ⟨hk, hk', rfl⟩; exact ⟨hk, hk, hget hk'⟩
    · rintro ⟨hk, -, rfl⟩; exact ⟨hk, by omega, (hget (by omega)).symm⟩
  case step_eq =>
    intro w hw
    simp [step?] at hw

/-! ### Images -/

/-- The index of the `k`-th smallest member of an image. -/
def imageIndex (f : MonotoneFn) (lo hi : Int) (k : Nat) : Int :=
  if rises f lo (.fin hi) then lo + k else hi - k

section Image
variable {f : MonotoneFn} {hi : Int} (h : (image f lo (.fin hi)).WellFormed) (hle : lo ≤ hi)
include h

theorem value?_of_mem_range {i : Int} (h1 : lo ≤ i) (h2 : i ≤ hi) :
    f.value? i = some (f.value i) := by
  obtain ⟨-, -, -, hdir, hlo, hhi⟩ := h
  obtain ⟨dir, hdir⟩ := Option.ne_none_iff_exists'.mp hdir
  obtain ⟨u, hu⟩ := Option.ne_none_iff_exists'.mp hlo
  obtain ⟨w, hw⟩ : ∃ w, f.value? hi = some w := by
    simpa [Extended.finite?, Option.ne_none_iff_exists'] using hhi
  exact MonotoneFn.value?_of_between hdir h1 h2 (Extended.le_refl _) hu hw

theorem value_imageIndex_lt {j k : Nat} (hjk : j < k) (hk : k < (hi - lo).toNat + 1) :
    f.value (imageIndex f lo hi j) < f.value (imageIndex f lo hi k) := by
  obtain ⟨dir, hdir⟩ := Option.ne_none_iff_exists'.mp h.2.2.2.1
  have hmono : ∀ {i i'}, lo ≤ i → i < i' → i' ≤ hi → dir.Precedes (f.value i) (f.value i') :=
    fun h1 h2 h3 => MonotoneFn.value_precedes hdir h1 h2 (Extended.fin_le_fin.mpr h3)
  unfold imageIndex rises
  cases dir with
  | ascending =>
    simp only [hdir, decide_true, if_true]
    exact hmono (by omega) (by omega) (by omega)
  | descending =>
    simp only [hdir, Option.some.injEq, reduceCtorEq, decide_false, Bool.false_eq_true, if_false]
    exact hmono (by omega) (by omega) (by omega)

/-- The look-up of an index from the end where the values are small. -/
theorem bind_value?_eq_some_iff {x : Option Int} {n k : Nat} {g : Nat → Int}
    (hx : ∀ i, x = some i ↔ k < (hi - lo).toNat + 1 ∧ k < n ∧ g k = i)
    (hg : k < (hi - lo).toNat + 1 → lo ≤ g k ∧ g k ≤ hi) :
    x.bind f.value? = some v ↔ k < (hi - lo).toNat + 1 ∧ k < n ∧ f.value (g k) = v := by
  rw [Option.bind_eq_some_iff]
  constructor
  · rintro ⟨i, h1, h2⟩
    obtain ⟨h3, h4, rfl⟩ := (hx i).mp h1
    rw [value?_of_mem_range h (hg h3).1 (hg h3).2] at h2
    exact ⟨h3, h4, Option.some.inj h2⟩
  · rintro ⟨h3, h4, rfl⟩
    exact ⟨g k, (hx _).mpr ⟨h3, h4, rfl⟩, value?_of_mem_range h (hg h3).1 (hg h3).2⟩

theorem step_eq_image {w : Int} (hw : (image f lo (.fin hi)).step? = some w)
    (hne : w ≠ Word.least) :
    0 < w ∧ ∀ k, f.value (imageIndex f lo hi k) = f.value (imageIndex f lo hi 0) + w * k := by
  have hdir := h.2.2.2.1
  cases f with
  | power e c => cases hw
  | exponential b c => cases hw
  | affine s o =>
    obtain rfl : Word.wrap s.natAbs = w := Option.some.inj hw
    rw [Word.wrap_natAbs h.1.1.1 hne]
    have hs : s ≠ 0 := by
      rintro rfl
      exact hdir rfl
    have hr : rises (.affine s o) lo (.fin hi) = decide (0 < s) := by
      simp only [rises, MonotoneFn.direction?, if_neg hs, Direction.ofStep]
      split_ifs with h1 <;> simp [h1]
    refine ⟨by omega, fun k => ?_⟩
    unfold imageIndex
    rw [hr]
    by_cases hpos : 0 < s
    · rw [Int.natAbs_of_nonneg hpos.le]
      simp only [hpos, decide_true, if_true, MonotoneFn.value]
      push_cast; ring
    · rw [Int.ofNat_natAbs_of_nonpos (by omega)]
      simp only [hpos, decide_false, Bool.false_eq_true, if_false, MonotoneFn.value]
      push_cast; ring

include hle

omit h in
theorem imageIndex_between {k : Nat} (hk : k < (hi - lo).toNat + 1) :
    lo ≤ imageIndex f lo hi k ∧ imageIndex f lo hi k ≤ hi := by
  unfold imageIndex
  split_ifs <;> omega

theorem enumeration_image : (image f lo (.fin hi)).Enumeration ((hi - lo).toNat + 1)
    (fun k => f.value (imageIndex f lo hi k)) := by
  obtain ⟨hlo, hhi⟩ : Word.Fits lo ∧ Word.Fits hi := ⟨h.1.2.1, h.1.2.2⟩
  have hlow := fun k i => intervalFromLow?_fin_iff (k := k) (v := i) hlo hhi hle
  have hhigh := fun k i => intervalFromHigh?_fin_iff (k := k) (v := i) hlo hhi hle
  have hbetween := fun {k} => imageIndex_between (f := f) (k := k) hle
  have hend : ((((hi - lo).toNat + 1 - 1 : Nat) : Int)) = hi - lo := by omega
  constructor
  case pos => omega
  case strict => exact value_imageIndex_lt h
  case fits =>
    intro k hk
    exact (MonotoneFn.value?_eq_some
      (value?_of_mem_range h (hbetween hk).1 (hbetween hk).2)).2
  case mem_iff =>
    intro v
    rw [mem_image_iff]
    constructor
    · rintro ⟨i, h1, h2, rfl⟩
      rw [Extended.fin_le_fin] at h2
      by_cases hr : rises f lo (.fin hi) = true
      · exact ⟨(i - lo).toNat, by omega, by rw [imageIndex, if_pos hr]; congr 1; omega⟩
      · exact ⟨(hi - i).toNat, by omega, by rw [imageIndex, if_neg hr]; congr 1; omega⟩
    · rintro ⟨k, hk, rfl⟩
      exact ⟨_, (hbetween hk).1, Extended.fin_le_fin.mpr (hbetween hk).2, rfl⟩
  case lower_eq =>
    simp only [lower, imageIndex]
    split_ifs
    · simp [endValue, value?_of_mem_range h (le_refl lo) hle]
    · simp [endValue, value?_of_mem_range h hle (le_refl hi)]
  case upper_eq =>
    simp only [upper, imageIndex]
    split_ifs
    · rw [hend, add_sub_cancel]
      simp [endValue, value?_of_mem_range h hle (le_refl hi)]
    · rw [hend, sub_sub_cancel]
      simp [endValue, value?_of_mem_range h (le_refl lo) hle]
  case size_eq => exact endsSpan?_eq_some hle
  case size_limit => exact eq_of_endsSpan?_eq_some hle
  case lt_reach => exact fun _ h => h
  case fromLow_iff =>
    intro k v
    simp only [fromLow?]
    split_ifs with hr
    · exact bind_value?_eq_some_iff h (by simp [hlow, imageIndex, hr, reach]) hbetween
    · exact bind_value?_eq_some_iff h (by simp [hhigh, imageIndex, hr, reach]) hbetween
  case fromHigh_iff =>
    intro k v
    have hsub : k < (hi - lo).toNat + 1 → (hi - lo).toNat + 1 - 1 - k < (hi - lo).toNat + 1 := by
      omega
    simp only [fromHigh?]
    split_ifs with hr
    · refine bind_value?_eq_some_iff
        (g := fun k => imageIndex f lo hi ((hi - lo).toNat + 1 - 1 - k))
        h (fun i => ?_) (fun hk => hbetween (hsub hk))
      simp only [hhigh, imageIndex, hr, if_true, reach]
      omega
    · refine bind_value?_eq_some_iff
        (g := fun k => imageIndex f lo hi ((hi - lo).toNat + 1 - 1 - k))
        h (fun i => ?_) (fun hk => hbetween (hsub hk))
      simp only [hlow, imageIndex, hr, if_false, reach, Bool.false_eq_true]
      omega
  case step_eq =>
    intro w hw hne
    obtain ⟨h1, h2⟩ := step_eq_image h hw hne
    exact ⟨h1, fun k _ => h2 k⟩

end Image

/-- **Every closed shape is enumerated.** -/
theorem exists_enumeration {s : Shape} (h : s.WellFormed) (hc : s.Closed) :
    ∃ n g, s.Enumeration n g := by
  cases s with
  | interval lo hi =>
    obtain ⟨a, b, rfl, rfl, hab⟩ := hc
    exact ⟨_, _, enumeration_interval h.1 h.2 hab⟩
  | intervalWithZero lo hi =>
    obtain ⟨a, b, rfl, rfl, hab⟩ := hc
    rcases lt_or_ge 0 a with h1 | h1
    · exact ⟨_, _, enumeration_intervalWithZero_of_pos h.1 h.2 hab h1⟩
    · rcases lt_or_ge b 0 with h2 | h2
      · exact ⟨_, _, enumeration_intervalWithZero_of_neg h.1 h.2 hab h2⟩
      · exact ⟨_, _, enumeration_intervalWithZero_of_between h.1 h.2 h1 h2⟩
  | listed l => exact ⟨_, _, enumeration_listed h hc⟩
  | image f lo hi =>
    obtain ⟨b, rfl, hb⟩ := hc
    exact ⟨_, _, enumeration_image h hb⟩

end Shape

/-- `g` gives the `n` values of a domain by position. -/
structure Domain.Enumeration (d : Domain) (n : Nat) (g : Nat → Int) : Prop where
  pos : 0 < n
  strict : ∀ {j k}, j < k → k < n → g j < g k
  fits : ∀ {k}, k < n → Word.Fits (g k)
  mem_iff : ∀ {v}, v ∈ d ↔ ∃ k < n, g k = v
  lower_eq : d.lower = .fin (g 0)
  upper_eq : d.upper = .fin (g (n - 1))
  size_eq : n < Word.positionLimit → d.size? = some n
  size_limit : ∀ {m}, d.size? = some m → m = n
  lt_reach : ∀ {k}, k < n → k < 9223372036854775808 → k < d.shape.reach
  ascending_iff : ∀ {k v}, d.at? .ascending k = some v ↔ k < n ∧ k < d.shape.reach ∧ g k = v
  descending_iff : ∀ {k v},
    d.at? .descending k = some v ↔ k < n ∧ k < d.shape.reach ∧ g (n - 1 - k) = v
  step_eq : ∀ {w}, d.step? = some w → 0 < w ∧ ∀ k < n, g k = g 0 + w * k

namespace Domain

variable {d : Domain} {n k : Nat} {g : Nat → Int} {v : Int}

/-! ### Multiples of an enumerated shape -/

theorem at?_eq_some_iff {dir : Direction} : d.at? dir k = some v ↔
    ∃ r, d.shape.at? (d.shapeDirection dir) k = some r ∧ r * d.multiplier = v ∧ Word.Fits v := by
  unfold at?
  simp only [Option.bind_eq_some_iff, Word.check?_eq_some_iff]
  refine exists_congr fun r => and_congr_right fun _ => ?_
  constructor
  · rintro ⟨rfl, h⟩; exact ⟨rfl, h⟩
  · rintro ⟨rfl, h⟩; exact ⟨rfl, h⟩

theorem exists_step_of_step? {w : Int} (h : d.step? = some w) :
    ∃ s, d.shape.step? = some s ∧ w = (s * d.multiplier).natAbs := by
  simp only [step?, Option.bind_eq_some_iff, Word.check?_eq_some_iff] at h
  obtain ⟨s, hs, _, ⟨rfl, -⟩, rfl, -⟩ := h
  exact ⟨s, hs, rfl⟩

/-- The absolute value of the slope has not wrapped where there is a known distance. -/
theorem shape_step?_ne_least {s w : Int} (hm : d.multiplier ≠ 0) (h : d.step? = some w)
    (hs : d.shape.step? = some s) : s ≠ Word.least := by
  rintro rfl
  simp only [step?, hs, Option.bind_some, Option.bind_eq_some_iff, Word.check?_eq_some_iff] at h
  obtain ⟨_, ⟨rfl, hfits⟩, -, habs⟩ := h
  simp only [Word.fits_iff, Word.least] at hfits habs
  omega

section Multiples
variable (h : d.WellFormed) (hg : d.shape.Enumeration n g)
include h hg

/-- Multiples lie between the multiples of the ends, which fit. -/
theorem WellFormed.fits_multiple (hk : k < n) : Word.Fits (g k * d.multiplier) := by
  have hlow : Word.Fits (g 0 * d.multiplier) := by
    rw [← Extended.scale?_fin_ne_none_iff, ← hg.lower_eq]; exact h.lower
  have hup : Word.Fits (g (n - 1) * d.multiplier) := by
    rw [← Extended.scale?_fin_ne_none_iff, ← hg.upper_eq]; exact h.upper
  have h1 : g 0 ≤ g k := hg.mono (Nat.zero_le k) hk
  have h2 : g k ≤ g (n - 1) := hg.mono (by omega) (by omega)
  rcases lt_or_gt_of_ne h.multiplier_ne_zero with hneg | hpos
  · exact Word.fits_of_between hup hlow (by nlinarith) (by nlinarith)
  · exact Word.fits_of_between hlow hup (by nlinarith) (by nlinarith)

omit h in
theorem mem_iff_exists_multiple : v ∈ d ↔ ∃ k < n, g k * d.multiplier = v := by
  rw [mem_iff]
  constructor
  · rintro ⟨r, hr, rfl⟩
    obtain ⟨k, hk, rfl⟩ := hg.mem_iff.mp hr
    exact ⟨k, hk, mul_comm _ _⟩
  · rintro ⟨k, hk, rfl⟩
    exact ⟨_, hg.mem_iff.mpr ⟨k, hk, rfl⟩, mul_comm _ _⟩

theorem WellFormed.enumeration_of_pos (hm : 0 < d.multiplier) :
    d.Enumeration n fun k => g k * d.multiplier where
  pos := hg.pos
  strict := fun hjk hk => mul_lt_mul_of_pos_right (hg.strict hjk hk) hm
  fits := h.fits_multiple hg
  mem_iff := mem_iff_exists_multiple hg
  lower_eq := by
    have hfits := h.fits_multiple hg hg.pos
    rw [Domain.lower, if_pos hm, hg.lower_eq, Extended.scale_fin_of_fits hfits]
  upper_eq := by
    have hfits := h.fits_multiple hg (Nat.sub_one_lt_of_lt hg.pos)
    rw [Domain.upper, if_pos hm, hg.upper_eq, Extended.scale_fin_of_fits hfits]
  size_eq := hg.size_eq
  size_limit := hg.size_limit
  lt_reach := hg.lt_reach
  ascending_iff := by
    intro k v
    rw [at?_eq_some_iff, shapeDirection, if_pos hm]
    simp only [Shape.at?, hg.fromLow_iff]
    constructor
    · rintro ⟨_, ⟨h1, h2, rfl⟩, h3, -⟩; exact ⟨h1, h2, h3⟩
    · rintro ⟨h1, h2, rfl⟩; exact ⟨_, ⟨h1, h2, rfl⟩, rfl, h.fits_multiple hg h1⟩
  descending_iff := by
    intro k v
    rw [at?_eq_some_iff, shapeDirection, if_pos hm]
    simp only [Shape.at?, hg.fromHigh_iff]
    constructor
    · rintro ⟨_, ⟨h1, h2, rfl⟩, h3, -⟩; exact ⟨h1, h2, h3⟩
    · rintro ⟨h1, h2, rfl⟩; exact ⟨_, ⟨h1, h2, rfl⟩, rfl, h.fits_multiple hg (by omega)⟩
  step_eq := by
    intro w hw
    obtain ⟨s, hs, rfl⟩ := exists_step_of_step? hw
    obtain ⟨hspos, hstep⟩ := hg.step_eq hs (shape_step?_ne_least h.multiplier_ne_zero hw hs)
    have hmul : 0 < s * d.multiplier := mul_pos hspos hm
    rw [Int.natAbs_of_nonneg hmul.le]
    refine ⟨hmul, fun k hk => ?_⟩
    rw [hstep k hk]
    ring

/-- A negative multiplier turns the order around. -/
theorem WellFormed.enumeration_of_neg (hm : d.multiplier < 0) :
    d.Enumeration n fun k => g (n - 1 - k) * d.multiplier where
  pos := hg.pos
  strict := fun hjk hk => mul_lt_mul_of_neg_right (hg.strict (by omega) (by omega)) hm
  fits := fun hk => h.fits_multiple hg (by omega)
  mem_iff := by
    intro v
    rw [mem_iff_exists_multiple hg]
    constructor
    · rintro ⟨k, hk, rfl⟩
      have hback : n - 1 - (n - 1 - k) = k := by omega
      exact ⟨n - 1 - k, by omega, by rw [hback]⟩
    · rintro ⟨k, hk, rfl⟩; exact ⟨n - 1 - k, by omega, rfl⟩
  lower_eq := by
    have hfits := h.fits_multiple hg (Nat.sub_one_lt_of_lt hg.pos)
    rw [Domain.lower, if_neg hm.not_gt, hg.upper_eq, Extended.scale_fin_of_fits hfits, Nat.sub_zero]
  upper_eq := by
    have hfits := h.fits_multiple hg hg.pos
    rw [Domain.upper, if_neg hm.not_gt, hg.lower_eq, Extended.scale_fin_of_fits hfits, Nat.sub_self]
  size_eq := hg.size_eq
  size_limit := hg.size_limit
  lt_reach := hg.lt_reach
  ascending_iff := by
    intro k v
    rw [at?_eq_some_iff, shapeDirection, if_neg hm.not_gt]
    simp only [Shape.at?, Direction.reverse, hg.fromHigh_iff]
    constructor
    · rintro ⟨_, ⟨h1, h2, rfl⟩, h3, -⟩; exact ⟨h1, h2, h3⟩
    · rintro ⟨h1, h2, rfl⟩; exact ⟨_, ⟨h1, h2, rfl⟩, rfl, h.fits_multiple hg (by omega)⟩
  descending_iff := by
    intro k v
    rw [at?_eq_some_iff, shapeDirection, if_neg hm.not_gt]
    simp only [Shape.at?, Direction.reverse, hg.fromLow_iff]
    constructor
    · rintro ⟨_, ⟨h1, h2, rfl⟩, h3, -⟩
      have hback : n - 1 - (n - 1 - k) = k := by omega
      exact ⟨h1, h2, by rw [hback, h3]⟩
    · rintro ⟨h1, h2, rfl⟩
      have hback : n - 1 - (n - 1 - k) = k := by omega
      rw [hback]
      exact ⟨_, ⟨h1, h2, rfl⟩, rfl, h.fits_multiple hg h1⟩
  step_eq := by
    intro w hw
    obtain ⟨s, hs, rfl⟩ := exists_step_of_step? hw
    obtain ⟨hspos, hstep⟩ := hg.step_eq hs (shape_step?_ne_least h.multiplier_ne_zero hw hs)
    have hmul : s * d.multiplier < 0 := mul_neg_of_pos_of_neg hspos hm
    rw [Int.ofNat_natAbs_of_nonpos hmul.le]
    refine ⟨neg_pos.mpr hmul, fun k hk => ?_⟩
    have hk' : ((n - 1 - k : Nat) : Int) = (n - 1 - 0 : Nat) - k := by omega
    rw [hstep (n - 1 - k) (by omega), hstep (n - 1 - 0) (by omega), hk']
    ring

/-- **Multiples of an enumerated shape are enumerated.** -/
theorem WellFormed.exists_enumeration : ∃ g', d.Enumeration n g' := by
  rcases lt_or_gt_of_ne h.multiplier_ne_zero with hneg | hpos
  · exact ⟨_, h.enumeration_of_neg hg hneg⟩
  · exact ⟨_, h.enumeration_of_pos hg hpos⟩

end Multiples

/-- **Every valid closed domain is enumerated.** -/
theorem Valid.exists_enumeration (h : d.Valid) (hc : d.isOpen = false) :
    ∃ n g, d.Enumeration n g := by
  obtain ⟨n, g, hg⟩ := Shape.exists_enumeration h.shape (h.closed hc)
  exact ⟨n, h.toWellFormed.exists_enumeration hg⟩

/-! ### Using an enumeration -/

namespace Enumeration

variable (h : d.Enumeration n g)
include h

theorem mono {j k : Nat} (hjk : j ≤ k) (hk : k < n) : g j ≤ g k := le_of_strict h.strict hjk hk

theorem mem (hk : k < n) : g k ∈ d := h.mem_iff.mpr ⟨k, hk, rfl⟩

theorem le_of_mem (hv : v ∈ d) : g 0 ≤ v := by
  obtain ⟨k, hk, rfl⟩ := h.mem_iff.mp hv
  exact h.mono (Nat.zero_le k) hk

theorem ge_of_mem (hv : v ∈ d) : v ≤ g (n - 1) := by
  obtain ⟨k, hk, rfl⟩ := h.mem_iff.mp hv
  exact h.mono (by omega) (by omega)

/-- The values lie as far apart as their positions, so there are no more positions than integers
between the bounds. -/
theorem add_le (hk : k < n) : g 0 + k ≤ g k := by
  induction k with
  | zero => simp
  | succ k ih =>
    have h1 := ih (by omega)
    have h2 := h.strict (show k < k + 1 by omega) hk
    push_cast
    omega

/-- Values of small magnitude can be addressed. -/
theorem lt_of_radius (hr : d.radius < 4611686018427387904) : n < 9223372036854775808 := by
  have hpos := h.pos
  have h1 := h.add_le (show n - 1 < n by omega)
  unfold radius at hr
  rw [h.lower_eq, h.upper_eq, Extended.magnitude_fin, Extended.magnitude_fin] at hr
  omega

theorem isOpen_eq : d.isOpen = false := by
  rw [isOpen_eq_false_iff, h.lower_eq, h.upper_eq]
  exact ⟨rfl, rfl⟩

theorem ascending_eq (hk : k < n) (hk' : k < 9223372036854775808) :
    d.at? .ascending k = some (g k) := h.ascending_iff.mpr ⟨hk, h.lt_reach hk hk', rfl⟩

theorem descending_eq (hk : k < n) (hk' : k < 9223372036854775808) :
    d.at? .descending k = some (g (n - 1 - k)) := h.descending_iff.mpr ⟨hk, h.lt_reach hk hk', rfl⟩

/-- Listing the values lists the enumeration, as far as positions can be addressed. -/
theorem mem_valuesFrom_iff : v ∈ d.valuesFrom .ascending k ↔
    ∃ j, k ≤ j ∧ j < n ∧ j < d.shape.reach ∧ g j = v := by
  fun_induction valuesFrom d .ascending k with
  | case1 k w hw ih =>
    obtain ⟨h1, h2, rfl⟩ := h.ascending_iff.mp hw
    rw [List.mem_cons, ih]
    constructor
    · rintro (rfl | ⟨j, h3, h4⟩)
      · exact ⟨k, le_refl k, h1, h2, rfl⟩
      · exact ⟨j, by omega, h4⟩
    · rintro ⟨j, h3, h4, h5, rfl⟩
      rcases h3.eq_or_lt with rfl | hlt
      · exact Or.inl rfl
      · exact Or.inr ⟨j, hlt, h4, h5, rfl⟩
  | case2 k hk =>
    constructor
    · intro hv
      simp at hv
    · rintro ⟨j, h1, h2, h3, rfl⟩
      have := h.ascending_iff (k := k) (v := g k) |>.mpr ⟨by omega, by omega, rfl⟩
      rw [hk] at this
      simp at this

end Enumeration

/-- The members of a valid closed domain are numbers of the range. -/
theorem Valid.admits (h : d.Valid) (hc : d.isOpen = false) (hv : v ∈ d) : d.Admits v := by
  obtain ⟨n, g, hg⟩ := h.exists_enumeration hc
  obtain ⟨j, hj, rfl⟩ := hg.mem_iff.mp hv
  exact ⟨hv, hg.fits hj⟩

end Domain

end ThresholdEncoding
