import ThresholdEncoding.Proofs.Encoder.Start

/-!
# The walk over the values of a leading variable

The walk collects the clauses of the values from the start up to a value that settles the
constraint. Every other value is covered: values before the start cannot meet the constraint, and
from a settling value on the constraint holds whatever the rest is.

* `walk_step`, `satisfies_walk_iff`: the walk satisfies the clauses of all values it reaches.
* `exists_walk`: the walk succeeds if its steps do.
* `Leading.satisfies_iff`: together, the clauses mean the constraint.
-/

namespace ThresholdEncoding.Encoder

open Domain

variable {e : Encoder} {overrides : Overrides} {t : Term} {d : Domain} {restLower : Extended}
variable {bound v : Int} {body : Int → Int → LoggedExcept EncodeError (List Clause)}
variable {ν : Valuation} {cs : List Clause} {k : Nat}

/-! ### What a walk collects -/

/-- A walk from position `k` gets as far as position `j`. -/
def Reaches (t : Term) (d : Domain) (restLower : Extended) (bound : Int) (k j : Nat) : Prop :=
  ∀ i, k ≤ i → i ≤ j →
    ∃ u, d.at? t.direction i = some u ∧ settles restLower bound (t.weight * u) = false

/-- **One step of a walk.** -/
theorem walk_step : walk t d restLower bound body k =
    match d.at? t.direction k with
    | none => pure []
    | some v =>
      match Word.check? (t.weight * v) with
      | none => throw (.domain .overflow)
      | some contribution =>
        if settles restLower bound contribution then do
          LoggedExcept.note (.settled t.var v)
          return []
        else do
          let here ← body v contribution
          let further ← walk t d restLower bound body (k + 1)
          return here ++ further := by
  cases hat : d.at? t.direction k with
  | none =>
    rw [walk]
    split
    · rfl
    · next h => rw [hat] at h; cases h
  | some v =>
    conv_lhs => rw [walk]
    split
    · next h => rw [hat] at h; cases h
    · next u h =>
      rw [hat] at h
      cases h
      rfl

theorem walk_of_end (hat : d.at? t.direction k = none) :
    walk t d restLower bound body k = pure [] := by
  rw [walk_step, hat]

theorem walk_of_not_fits (hat : d.at? t.direction k = some v)
    (hfits : ¬ Word.Fits (t.weight * v)) :
    walk t d restLower bound body k = throw (.domain .overflow) := by
  rw [walk_step, hat]
  simp only [Word.check?_of_not_fits hfits]

theorem walk_of_settles (hat : d.at? t.direction k = some v) (hfits : Word.Fits (t.weight * v))
    (hs : settles restLower bound (t.weight * v) = true) :
    walk t d restLower bound body k = do
      LoggedExcept.note (.settled t.var v)
      return [] := by
  rw [walk_step, hat]
  simp only [Word.check?_of_fits hfits, hs, if_true]

theorem walk_of_not_settles (hat : d.at? t.direction k = some v) (hfits : Word.Fits (t.weight * v))
    (hs : settles restLower bound (t.weight * v) = false) :
    walk t d restLower bound body k = do
      let here ← body v (t.weight * v)
      let further ← walk t d restLower bound body (k + 1)
      return here ++ further := by
  rw [walk_step, hat]
  simp only [Word.check?_of_fits hfits, hs, Bool.false_eq_true, if_false]

theorem value_walk : (walk t d restLower bound body k).value =
    match d.at? t.direction k with
    | none => .ok []
    | some v =>
      match Word.check? (t.weight * v) with
      | none => .error (.domain .overflow)
      | some contribution =>
        if settles restLower bound contribution then .ok []
        else (body v contribution).value >>= fun here =>
          (walk t d restLower bound body (k + 1)).value >>= fun further =>
            .ok (here ++ further) := by
  rw [walk_step]
  cases d.at? t.direction k with
  | none => rfl
  | some v =>
    simp only
    cases Word.check? (t.weight * v) with
    | none => rfl
    | some c =>
      simp only
      split_ifs
      · rfl
      · simp only [LoggedExcept.value_bind, LoggedExcept.value_pure]

/-- How a walk goes on from a position that holds a value. -/
theorem walk_eq_ok (h : (walk t d restLower bound body k).value = .ok cs) :
    cs = [] ∧ (∀ u, d.at? t.direction k = some u →
        settles restLower bound (t.weight * u) = true) ∨
      ∃ u here further, d.at? t.direction k = some u ∧
        settles restLower bound (t.weight * u) = false ∧
        (body u (t.weight * u)).value = .ok here ∧
        (walk t d restLower bound body (k + 1)).value = .ok further ∧ cs = here ++ further := by
  rw [value_walk] at h
  split at h
  · next hat => exact Or.inl ⟨(Except.ok.inj h).symm, fun u hu => by rw [hat] at hu; cases hu⟩
  · next v hat =>
    split at h
    · cases h
    · next c hc =>
      obtain ⟨rfl, -⟩ := Word.check?_eq_some_iff.mp hc
      split_ifs at h with hs
      · refine Or.inl ⟨(Except.ok.inj h).symm, fun u hu => ?_⟩
        rw [hat] at hu
        cases hu
        exact hs
      · obtain ⟨here, h1, h⟩ := Except.bind_eq_ok_iff.mp h
        obtain ⟨further, h2, h⟩ := Except.bind_eq_ok_iff.mp h
        exact Or.inr ⟨v, here, further, hat, by simpa using hs, h1, h2, (Except.ok.inj h).symm⟩

theorem reaches_self {u : Int} (hat : d.at? t.direction k = some u)
    (hs : settles restLower bound (t.weight * u) = false) :
    Reaches t d restLower bound k k := by
  intro i h1 h2
  obtain rfl : i = k := by omega
  exact ⟨u, hat, hs⟩

theorem reaches_succ {j : Nat} {u : Int} (hat : d.at? t.direction k = some u)
    (hs : settles restLower bound (t.weight * u) = false) :
    Reaches t d restLower bound k j ↔ Reaches t d restLower bound (k + 1) j := by
  constructor
  · exact fun h i h1 h2 => h i (by omega) h2
  · intro h i h1 h2
    rcases h1.eq_or_lt with rfl | hlt
    · exact ⟨u, hat, hs⟩
    · exact h i hlt h2

/-- **A walk collects the clauses of the values it reaches.** -/
theorem satisfies_walk_iff (h : (walk t d restLower bound body k).value = .ok cs) :
    (∀ j u, k ≤ j → Reaches t d restLower bound k j → d.at? t.direction j = some u →
      ∃ l, (body u (t.weight * u)).value = .ok l) ∧
    (ν.Satisfies cs ↔ ∀ j u l, k ≤ j → Reaches t d restLower bound k j →
      d.at? t.direction j = some u → (body u (t.weight * u)).value = .ok l → ν.Satisfies l) := by
  induction hn : d.shape.reach - k using Nat.strong_induction_on generalizing k cs with
  | _ n ih =>
  rcases walk_eq_ok h with ⟨rfl, hstop⟩ | ⟨v, here, further, hat, hs, h1, h2, rfl⟩
  · -- nothing is reached
    have hnot : ∀ j, k ≤ j → ¬ Reaches t d restLower bound k j := by
      intro j hj hreach
      obtain ⟨u, hu, hu'⟩ := hreach k (le_refl k) hj
      rw [hstop u hu] at hu'
      cases hu'
    refine ⟨fun j u hj hreach _ => absurd hreach (hnot j hj), ?_⟩
    simp only [Valuation.satisfies_nil, true_iff]
    exact fun j u l hj hreach _ _ => absurd hreach (hnot j hj)
  · have hlt := Domain.lt_reach_of_at? hat
    obtain ⟨h3, h4⟩ := ih (d.shape.reach - (k + 1)) (by omega) h2 rfl
    constructor
    · intro j u hj hreach hu
      rcases hj.eq_or_lt with rfl | hkj
      · rw [hat] at hu
        cases hu
        exact ⟨here, h1⟩
      · exact h3 j u hkj ((reaches_succ hat hs).mp hreach) hu
    · rw [Valuation.satisfies_append, h4]
      constructor
      · rintro ⟨h5, h6⟩ j u l hj hreach hu hl
        rcases hj.eq_or_lt with rfl | hkj
        · rw [hat] at hu
          cases hu
          rw [h1] at hl
          cases hl
          exact h5
        · exact h6 j u l hkj ((reaches_succ hat hs).mp hreach) hu hl
      · intro h5
        exact ⟨h5 k v here (le_refl k) (reaches_self hat hs) hat h1, fun j u l hkj hreach hu hl =>
          h5 j u l (by omega) ((reaches_succ hat hs).mpr hreach) hu hl⟩

/-- All clauses of a walk are clauses of values. -/
theorem forall_mem_of_walk {P : Clause → Prop}
    (hbody : ∀ u l, Word.Fits u → (body u (t.weight * u)).value = .ok l → ∀ c ∈ l, P c)
    (h : (walk t d restLower bound body k).value = .ok cs) : ∀ c ∈ cs, P c := by
  induction hn : d.shape.reach - k using Nat.strong_induction_on generalizing k cs with
  | _ n ih =>
  rcases walk_eq_ok h with ⟨rfl, -⟩ | ⟨u, here, further, hat, -, h1, h2, rfl⟩
  · simp
  · have hlt := Domain.lt_reach_of_at? hat
    obtain ⟨-, -, -, hfits⟩ := at?_eq_some_iff.mp hat
    intro c hc
    rcases List.mem_append.mp hc with hc | hc
    · exact hbody u here hfits h1 c hc
    · exact ih (d.shape.reach - (k + 1)) (by omega) h2 rfl c hc

/-- A walk succeeds if all contributions fit and all steps succeed. -/
theorem exists_walk (h : ∀ j u, d.at? t.direction j = some u → Word.Fits (t.weight * u) ∧
    ∃ l, (body u (t.weight * u)).value = .ok l) :
    ∃ cs, (walk t d restLower bound body k).value = .ok cs := by
  induction hn : d.shape.reach - k using Nat.strong_induction_on generalizing k with
  | _ n ih =>
  rw [value_walk]
  cases hat : d.at? t.direction k with
  | none => exact ⟨[], rfl⟩
  | some v =>
    obtain ⟨hfits, here, h1⟩ := h k v hat
    have hlt := Domain.lt_reach_of_at? hat
    obtain ⟨further, h2⟩ := ih (d.shape.reach - (k + 1)) (by omega) rfl
    simp only [Word.check?_of_fits hfits, h1, h2, Except.ok_bind]
    split_ifs
    · exact ⟨[], rfl⟩
    · exact ⟨_, rfl⟩

/-! ### Where a walk stops -/

/-- Along a sequence, a walk gets to every later position unless a value before it settles the
constraint. -/
theorem reaches_or_settles {v : Nat → Int} {m : Nat} (hkm : k ≤ m)
    (h0 : d.at? t.direction k = some (v k))
    (hstep : ∀ j, k ≤ j → j < m → d.at? t.direction j = some (v j) →
      settles restLower bound (t.weight * v j) = false →
      d.at? t.direction (j + 1) = some (v (j + 1))) :
    (Reaches t d restLower bound k m ∧ d.at? t.direction m = some (v m)) ∨
      ∃ j, k ≤ j ∧ j ≤ m ∧ settles restLower bound (t.weight * v j) = true := by
  induction m, hkm using Nat.le_induction with
  | base =>
    cases hs : settles restLower bound (t.weight * v k) with
    | true => exact Or.inr ⟨k, le_refl k, le_refl k, hs⟩
    | false => exact Or.inl ⟨reaches_self h0 hs, h0⟩
  | succ m hkm ih =>
    rcases ih fun j h1 h2 => hstep j h1 (by omega) with ⟨hreach, hat⟩ | ⟨j, h1, h2, h3⟩
    · obtain ⟨u, hu, hs⟩ := hreach m hkm (le_refl m)
      obtain rfl : u = v m := by
        rw [hat] at hu
        exact (Option.some.inj hu).symm
      have hat' := hstep m hkm (by omega) hat hs
      cases hs' : settles restLower bound (t.weight * v (m + 1)) with
      | true => exact Or.inr ⟨m + 1, by omega, le_refl _, hs'⟩
      | false =>
        refine Or.inl ⟨fun i h1 h2 => ?_, hat'⟩
        rcases h2.eq_or_lt with rfl | hlt
        · exact ⟨_, hat', hs'⟩
        · exact hreach i h1 (by omega)
    · exact Or.inr ⟨j, h1, by omega, h3⟩

/-- A settling value makes the sum reach the bound with the least value of the rest. -/
theorem settles_iff {c : Int} (hb : Word.Fits bound) (hinf : restLower ≠ .posInf) :
    settles restLower bound c = true ↔ ∃ n, restLower = .fin n ∧ bound ≤ n + c := by
  unfold settles
  rw [decide_eq_true_eq]
  cases restLower with
  | posInf => exact absurd rfl hinf
  | negInf =>
    rw [Extended.add_of_infinite rfl]
    simp
  | fin n =>
    rw [Extended.fin_add_fin, Extended.fin_le_saturate_iff hb]
    simp

/-! ### What the clauses of a leading variable mean -/

/-- The bounds with which terms of the given reach can be encoded. Encoding a leading variable keeps
the bound of what remains in this range. -/
structure Within (bound : Int) (reach : Nat) : Prop where
  reach_lt : reach < 4611686018427387904
  upper : bound + reach < 4611686018427387904
  lower : reach - bound < 9223372036854775808

theorem Within.fits {reach : Nat} (h : Within bound reach) : Word.Fits bound := by
  have h1 := h.upper
  have h2 := h.lower
  rw [Word.fits_iff]
  omega

/-- A value of a leading variable, and what is known about the values that a walk reaches. -/
structure Leading (e : Encoder) (overrides : Overrides) (b : BoundedTerm) (d o : Domain)
    (restLower : Extended) (bound : Int) (rest : Int) (reach : Nat) : Prop where
  weighed : e.Weighed overrides b d
  visitable : e.Visitable overrides b.term.var d o
  within : Within bound (e.reach overrides b.term + reach)
  lower : restLower = .negInf ∨
    ∃ n, restLower = .fin n ∧ n.natAbs ≤ reach ∧ n ≤ rest

namespace Leading

variable {b : BoundedTerm} {o : Domain} {rest : Int} {reach : Nat}
variable (h : Leading e overrides b d o restLower bound rest reach)
include h

theorem radius_lt : o.radius < 4611686018427387904 :=
  lt_of_le_of_lt h.visitable.radius_le h.weighed.radius_lt

theorem lower_ne : restLower ≠ .posInf := by
  rcases h.lower with hl | ⟨n, hl, -⟩ <;> rw [hl] <;> simp

theorem settles_iff {c : Int} :
    settles restLower bound c = true ↔ ∃ n, restLower = .fin n ∧ bound ≤ n + c :=
  Encoder.settles_iff h.within.fits h.lower_ne

/-- A value that settles the constraint makes it hold. -/
theorem le_of_settles {c : Int} (hs : settles restLower bound c = true) : bound ≤ c + rest := by
  obtain ⟨n, hn, hle⟩ := h.settles_iff.mp hs
  rcases h.lower with hl | ⟨n', hl, -, hrest⟩
  · rw [hl] at hn; cases hn
  · rw [hl] at hn
    cases hn
    omega

/-- The contribution of a finite bound is small. -/
theorem natAbs_bound_le {dir : Direction} {n : Int} (hn : o.startBound dir = .fin n) :
    (b.term.weight * n).natAbs ≤ e.reach overrides b.term := by
  have h1 := magnitude_startBound_le (d := o) dir
  rw [hn, Extended.magnitude_fin] at h1
  rw [Int.natAbs_mul]
  exact Nat.mul_le_mul_left _ (le_trans h1 h.visitable.radius_le)

variable {k n : Nat} {v : Nat → Int}
variable (hseq : o.Sequence b.term.direction n v)
include hseq

/-- Later values contribute more. -/
theorem mul_le {j : Nat} (hjk : j ≤ k) (hk : k < n) :
    b.term.weight * v j ≤ b.term.weight * v k := by
  rcases hseq.eq_or_precedes hjk hk with heq | hlt
  · rw [heq]
  · exact (mul_lt_mul_of_precedes h.weighed.weight_ne_zero hlt).le

variable (hclosed : o.isOpen = false ∨ restLower.isFinite = true)
include hclosed

/-- **The contributions of the values that are reached are small**, and so is the bound of what
remains: over a closed domain as all contributions are, over an open one as larger contributions
settle the constraint. -/
theorem small (hat : o.at? b.term.direction k = some (v k))
    (hs : settles restLower bound (b.term.weight * v k) = false) :
    (b.term.weight * v k).natAbs < 4611686018427387904 ∧
      Within (bound - b.term.weight * v k) reach := by
  obtain ⟨hk, -, hfits⟩ := hseq.of_at hat
  obtain ⟨h1, h2, h3⟩ := h.within
  push_cast at h2 h3
  rcases hclosed with ho | hfin
  · have h4 := h.visitable.natAbs_mul_le ho ⟨hseq.mem hk, hfits⟩
    exact ⟨by omega, by omega, by omega, by omega⟩
  · have h4 := h.natAbs_bound_le hseq.start_eq
    have h5 := h.mul_le hseq (Nat.zero_le k) hk
    rcases h.lower with hl | ⟨low, hl, hmag, -⟩
    · rw [hl] at hfin; cases hfin
    · have h6 : ¬ bound ≤ low + b.term.weight * v k := by
        intro hle
        rw [h.settles_iff.mpr ⟨low, hl, hle⟩] at hs
        cases hs
      exact ⟨by omega, by omega, by omega, by omega⟩

/-- Until a value is settled, the look-up by position follows the sequence. -/
theorem at_succ {m : Nat} (hm : m < n) (hmfits : Word.Fits (v m)) {j : Nat} (hjm : j < m)
    (hat : o.at? b.term.direction j = some (v j))
    (hs : settles restLower bound (b.term.weight * v j) = false) :
    o.at? b.term.direction (j + 1) = some (v (j + 1)) := by
  have hw := Int.natAbs_pos.mpr h.weighed.weight_ne_zero
  have hj := (h.small hseq hclosed hat hs).1
  have h0 := h.natAbs_bound_le hseq.start_eq
  have hdist := hseq.le_natAbs_sub (show j < n by omega)
  have hreach := h.weighed.reach_lt
  rw [Int.natAbs_mul] at hj h0
  have hj' : (v j).natAbs < 4611686018427387904 :=
    lt_of_le_of_lt (Nat.le_mul_of_pos_left _ hw) hj
  have h0' : (v 0).natAbs < 4611686018427387904 :=
    lt_of_le_of_lt (Nat.le_mul_of_pos_left _ hw) (lt_of_le_of_lt h0 hreach)
  exact hseq.at_succ hat (by omega) (by omega) (by omega)
    (hseq.fits_of_le (Word.fits_of_natAbs_lt (by omega)) hjm hm hmfits)

omit h hclosed in
/-- The walk starts at a value. The value at a later start contributes too little, whatever the
rest is. -/
theorem at_start {start : Nat} (hstart : start = 0 ∨ ∃ hi u, rest ≤ hi ∧
      o.at? b.term.direction start = some u ∧ b.term.weight * u < bound - hi) :
    o.at? b.term.direction start = some (v start) ∧
      (start ≠ 0 → b.term.weight * v start + rest < bound) := by
  rcases hstart with rfl | ⟨hi, u, hhi, hat, hlt⟩
  · exact ⟨hseq.at_zero, fun h0 => absurd rfl h0⟩
  · obtain ⟨-, rfl, -⟩ := hseq.of_at hat
    exact ⟨hat, fun _ => by omega⟩

section Meaning
variable {start m : Nat} (hm : m < n) (hmfits : Word.Fits (v m))
variable (hbody : ∀ u l, Word.Fits u → Within (bound - b.term.weight * u) reach →
  (body u (b.term.weight * u)).value = .ok l → (ν.Satisfies l ↔
    b.term.direction.Precedes u (v m) ∨ bound - b.term.weight * u ≤ rest))
variable (hwalk : (walk b.term o restLower bound body start).value = .ok cs)
include hm hbody hwalk

/-- If the constraint holds, every clause is true: the variable lies beyond the value or contributes
no more than the value does. -/
theorem satisfies_of_le (hle : bound ≤ b.term.weight * v m + rest) : ν.Satisfies cs := by
  refine (satisfies_walk_iff hwalk).2.mpr fun j u l hj hreach hat hl => ?_
  obtain ⟨hjn, rfl, hfits⟩ := hseq.of_at hat
  obtain ⟨u', hu', hs⟩ := hreach j hj (le_refl j)
  rw [hat] at hu'
  cases hu'
  refine (hbody _ l hfits (h.small hseq hclosed hat hs).2 hl).mpr ?_
  rcases lt_or_ge j m with hjm | hmj
  · exact Or.inl (hseq.precedes hjm hm)
  · have := h.mul_le hseq hmj hjn
    exact Or.inr (by omega)

omit hm in
/-- The clauses of a value that is reached and not behind the variable say that the rest makes up
for the value. -/
theorem le_of_satisfies {j : Nat} (hsat : ν.Satisfies cs) (hj : start ≤ j) (hmj : m ≤ j)
    (hreach : Reaches b.term o restLower bound start j)
    (hat : o.at? b.term.direction j = some (v j)) : bound - b.term.weight * v j ≤ rest := by
  obtain ⟨hex, hiff⟩ := satisfies_walk_iff (ν := ν) hwalk
  obtain ⟨hjn, -, hfits⟩ := hseq.of_at hat
  obtain ⟨u, hu, hs⟩ := hreach j hj (le_refl j)
  rw [hat] at hu
  cases hu
  obtain ⟨l, hl⟩ := hex j _ hj hreach hat
  have hmean := hbody _ l hfits (h.small hseq hclosed hat hs).2 hl
  rcases hmean.mp (hiff.mp hsat j _ l hj hreach hat hl) with hlt | hle
  · rcases hseq.eq_or_precedes hmj hjn with heq | hgt
    · rw [heq] at hlt
      exact absurd hlt Direction.Precedes.irrefl
    · exact absurd (hlt.trans hgt) Direction.Precedes.irrefl
  · exact hle

include hmfits

/-- **The clauses of a leading variable mean the constraint**, if the clauses of every value mean
what remains unless the variable lies beyond the value. -/
theorem satisfies_iff (hstart : start = 0 ∨ ∃ hi u, rest ≤ hi ∧
      o.at? b.term.direction start = some u ∧ b.term.weight * u < bound - hi) :
    ν.Satisfies cs ↔ bound ≤ b.term.weight * v m + rest := by
  refine ⟨fun hsat => ?_, h.satisfies_of_le hseq hclosed hm hbody hwalk⟩
  obtain ⟨h0, hpruned⟩ := at_start hseq hstart
  rcases lt_or_ge m start with hlt | hge
  · -- the variable lies before the start, and the clauses of the start cannot be true
    have hlow := hpruned (by omega)
    have hs : settles restLower bound (b.term.weight * v start) = false := by
      by_contra hs
      have := h.le_of_settles (by simpa using hs)
      omega
    have := h.le_of_satisfies hseq hclosed hbody hwalk hsat (le_refl start) hlt.le
      (reaches_self h0 hs) h0
    omega
  · have hstep : ∀ j, start ≤ j → j < m → o.at? b.term.direction j = some (v j) →
        settles restLower bound (b.term.weight * v j) = false →
        o.at? b.term.direction (j + 1) = some (v (j + 1)) :=
      fun j _ hjm hat hs => h.at_succ hseq hclosed hm hmfits hjm hat hs
    rcases reaches_or_settles hge h0 hstep with ⟨hreach, hat⟩ | ⟨j, h1, h2, hs⟩
    · have := h.le_of_satisfies hseq hclosed hbody hwalk hsat hge (le_refl m) hreach hat
      omega
    · have h3 := h.le_of_settles hs
      have h4 := h.mul_le hseq h2 hm
      omega

end Meaning

end Leading

end ThresholdEncoding.Encoder
