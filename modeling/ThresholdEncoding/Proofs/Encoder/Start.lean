import ThresholdEncoding.Proofs.Encoder.Bounds
import ThresholdEncoding.Proofs.Except

/-!
# Where the values of a leading variable are visited from

The first value that is visited is the first one of the domain, or one with which the constraint
fails whatever the rest is. All values before it contribute even less, so no clause is missing.

* `Regular.exists_visitable`: the domain over which values are visited.
* `firstPosition_spec`, `exists_startPosition`: the position of the first value.
* `visit_eq_ok`: what a successful start says.
-/

namespace ThresholdEncoding.Encoder

open Domain

variable {e : Encoder} {overrides : Overrides} {d : Domain} {t : Term} {x : IntVar}
variable {n : Nat} {g : Nat → Int} {bound : Int} {restLower restUpper : Extended}

/-- What is known about the domain over which the values of a variable are visited. -/
structure Visitable (e : Encoder) (overrides : Overrides) (x : IntVar) (d o : Domain) : Prop where
  visited_eq : e.visitedDomain overrides x = .ok o
  valid : o.Valid
  simple : o.isOpen = false ∨ o.isInterval = true
  subset : ∀ v ∈ o, v ∈ d
  radius_le : o.radius ≤ e.radius overrides x
  closed : d.isOpen = false → o.isOpen = false

theorem Regular.exists_visitable (h : e.Regular overrides x d) :
    ∃ o, e.Visitable overrides x d o := by
  cases ho : overrides x with
  | none =>
    exact ⟨d, by unfold visitedDomain; rw [ho]; exact domain_eq_ok h.domain_eq, h.valid, h.simple,
      fun _ hv => hv, Encoder.radius_le h.domain_eq, id⟩
  | some o =>
    obtain ⟨h1, h2, h3⟩ := h.override o ho
    exact ⟨o, by unfold visitedDomain; rw [ho], h1, Or.inl h2, h3, radius_le_of_override ho,
      fun _ => h2⟩

/-- Over a closed domain all contributions are small. -/
theorem Visitable.natAbs_mul_le {o : Domain} {u : Int} (h : e.Visitable overrides t.var d o)
    (ho : o.isOpen = false) (hu : o.Admits u) :
    (t.weight * u).natAbs ≤ e.reach overrides t := by
  obtain ⟨h1, h2⟩ := h.valid.between hu.1
  obtain ⟨hl, hh⟩ := isOpen_eq_false_iff.mp ho
  obtain ⟨lo, hlo⟩ := Extended.isFinite_iff.mp hl
  obtain ⟨hi, hhi⟩ := Extended.isFinite_iff.mp hh
  have hrad := h.radius_le
  unfold Domain.radius at hrad
  rw [hlo, Extended.fin_le_fin] at h1
  rw [hhi, Extended.fin_le_fin] at h2
  rw [hlo, hhi, Extended.magnitude_fin, Extended.magnitude_fin] at hrad
  rw [Int.natAbs_mul]
  exact Nat.mul_le_mul_left _ (by omega)

/-- **The first position is `0` or that of a value which contributes too little.** If there are more
values than positions, its value may contribute nothing that is positive instead. -/
theorem firstPosition_spec (gap : Int) (h : d.Enumeration n g) (hw : t.weight ≠ 0) :
    ∃ s, firstPosition d t gap = .ok s ∧ (s = 0 ∨ (n ≤ 9223372036854775808 → s < n) ∧
      ∀ u, d.at? t.direction s = some u →
        t.weight * u < gap ∨ 9223372036854775808 < n ∧ t.weight * u ≤ 0) := by
  unfold firstPosition
  rcases direction_cases hw with ⟨hdir, hpos⟩ | ⟨hdir, hneg⟩
  · obtain ⟨r, hr, hbelow, hrn, -⟩ := h.exists_rank_spec (Word.ceilDiv gap t.weight)
    refine ⟨r - 1, ?_, ?_⟩
    · simp only [hdir, hr]
      rfl
    · by_cases hr0 : r = 0
      · exact Or.inl (by omega)
      · refine Or.inr ⟨fun hn => by have := hrn hn; omega, fun u hu => Or.inl ?_⟩
        rw [hdir] at hu
        obtain ⟨hlast, -, rfl⟩ := h.ascending_iff.mp hu
        exact (Word.lt_ceilDiv_iff hpos).mp (hbelow (r - 1) hlast (by omega))
  · simp only [hdir]
    split
    · next threshold m hq hm =>
      obtain ⟨q, hq, hq'⟩ := Option.bind_eq_some_iff.mp hq
      rw [Word.floorDiv?_eq_check? hw] at hq
      obtain ⟨rfl, -⟩ := Word.check?_eq_some_iff.mp hq
      obtain ⟨rfl, -⟩ := Word.check?_eq_some_iff.mp hq'
      obtain rfl := h.size_limit hm
      obtain ⟨r, hr, -, -, habove⟩ := h.exists_rank_spec (gap.fdiv t.weight + 1)
      refine ⟨m - r - 1, by rw [hr]; rfl, ?_⟩
      by_cases hrm : m ≤ r
      · exact Or.inl (by omega)
      · -- seen from above, the position is that of the value at the rank
        have hplace : m - 1 - (m - r - 1) = r := by omega
        refine Or.inr ⟨fun _ => by omega, fun u hu => ?_⟩
        obtain ⟨-, -, rfl⟩ := h.descending_iff.mp hu
        rw [hplace]
        rcases habove (by omega) with hle | ⟨hm, hle⟩
        · exact Or.inl ((Word.fdiv_lt_iff hneg).mp (by omega))
        · exact Or.inr ⟨hm, mul_nonpos_of_nonpos_of_nonneg hneg.le hle⟩
    · exact ⟨0, rfl, Or.inl rfl⟩

/-- Where positions count the values, the first position holds a value. -/
theorem exists_firstPosition (gap : Int) (h : d.Enumeration n g) (hn : n ≤ 9223372036854775808)
    (hw : t.weight ≠ 0) : ∃ s, firstPosition d t gap = .ok s ∧
      (s = 0 ∨ ∃ u, d.at? t.direction s = some u ∧ t.weight * u < gap) := by
  obtain ⟨s, hs, hspec⟩ := firstPosition_spec gap h hw
  refine ⟨s, hs, hspec.imp_right ?_⟩
  rintro ⟨hsn, hspec⟩
  have hsn := hsn hn
  obtain ⟨u, hu⟩ : ∃ u, d.at? t.direction s = some u := by
    cases t.direction with
    | ascending => exact ⟨_, h.ascending_eq hsn (by omega)⟩
    | descending => exact ⟨_, h.descending_eq hsn (by omega)⟩
  refine ⟨u, hu, (hspec u hu).resolve_right ?_⟩
  rintro ⟨hlarge, -⟩
  omega

/-- Only with pruning and a gap that fits the start is not the first position. -/
theorem startPosition_cases (d : Domain) (t : Term) (restUpper : Extended) (bound : Int)
    (pruned : Bool) : startPosition d t restUpper bound pruned = .ok 0 ∨ pruned = true ∧
      ∃ hi, restUpper = .fin hi ∧ Word.Fits (bound - hi) ∧
        startPosition d t restUpper bound pruned = firstPosition d t (bound - hi) := by
  unfold startPosition
  split
  · next gap hgap =>
    obtain ⟨hi, hhi, hgap⟩ := Option.bind_eq_some_iff.mp hgap
    obtain ⟨rfl, hfits⟩ := Word.check?_eq_some_iff.mp hgap
    split_ifs with hpr
    · exact Or.inr ⟨hpr, hi, Extended.finite?_eq_some_iff.mp hhi, hfits, rfl⟩
    · exact Or.inl rfl
  · exact Or.inl rfl

theorem exists_startPosition (restUpper : Extended) (bound : Int) (hd : d.Valid)
    (hr : d.radius < 4611686018427387904)
    (hw : t.weight ≠ 0) {pruned : Bool} (hp : pruned = true → d.isOpen = false) :
    ∃ s, startPosition d t restUpper bound pruned = .ok s ∧
      (s = 0 ∨ d.isOpen = false ∧ ∃ hi u, restUpper = .fin hi ∧ d.at? t.direction s = some u ∧
        t.weight * u < bound - hi) := by
  rcases startPosition_cases d t restUpper bound pruned with h0 | ⟨hpr, hi, hhi, -, heq⟩
  · exact ⟨0, h0, Or.inl rfl⟩
  · obtain ⟨n, g, hg⟩ := hd.exists_enumeration (hp hpr)
    obtain ⟨s, h1, h2⟩ := exists_firstPosition (bound - hi) hg (hg.lt_of_radius hr).le hw
    refine ⟨s, heq.trans h1, h2.imp_right ?_⟩
    rintro ⟨u, h3, h4⟩
    exact ⟨hp hpr, hi, u, hhi, h3, h4⟩

section Visit
variable {o : Domain} (h : e.Visitable overrides t.var d o) (hr : o.radius < 4611686018427387904)
variable (hw : t.weight ≠ 0)
include h hr hw

/-- The start fails only where infinitely many values would have to be visited. -/
theorem visit_cases (restLower restUpper : Extended) (bound : Int) : ∃ s,
    (s = 0 ∨ o.isOpen = false ∧ ∃ hi u, restUpper = .fin hi ∧
      o.at? t.direction s = some u ∧ t.weight * u < bound - hi) ∧
    e.visit overrides t restLower restUpper bound =
      if ((o.startBound t.direction.reverse).isFinite || restLower.isFinite) = true ∧
          (o.startBound t.direction).isFinite = true
      then .ok ⟨o, s, e.options.prune && !o.isOpen⟩ else .error (.unbounded t.var) := by
  obtain ⟨s, h1, h2⟩ := exists_startPosition restUpper bound h.valid hr hw
    (show (e.options.prune && !o.isOpen) = true → o.isOpen = false by simp)
  refine ⟨s, h2, ?_⟩
  unfold visit
  rw [h.visited_eq]
  simp only [Except.ok_bind, h1, Except.mapError_ok]
  by_cases hA : ((o.startBound t.direction.reverse).isFinite || restLower.isFinite) = true
  · by_cases hB : (o.startBound t.direction).isFinite = true <;> simp [hA, hB]
  · simp [hA]

/-- What a successful start says. -/
theorem visit_eq_ok {w : Visit}
    (hv : e.visit overrides t restLower restUpper bound = .ok w) :
    w.domain = o ∧ (o.startBound t.direction).isFinite = true ∧
      (o.isOpen = false ∨ restLower.isFinite = true) ∧
      (w.start = 0 ∨ o.isOpen = false ∧ ∃ hi u, restUpper = .fin hi ∧
        o.at? t.direction w.start = some u ∧ t.weight * u < bound - hi) := by
  obtain ⟨s, hs, heq⟩ := visit_cases h hr hw restLower restUpper bound
  rw [heq] at hv
  split_ifs at hv with hAB
  cases hv
  refine ⟨rfl, hAB.2, ?_, hs⟩
  rw [Bool.or_eq_true] at hAB
  rcases hAB with ⟨h1 | h1, h2⟩
  · refine Or.inl (isOpen_eq_false_iff.mpr ?_)
    cases hdir : t.direction <;> rw [hdir] at h1 h2
    · exact ⟨h2, h1⟩
    · exact ⟨h1, h2⟩
  · exact Or.inr h1

/-- The start succeeds over a closed domain. -/
theorem exists_visit (restLower restUpper : Extended) (bound : Int) (ho : o.isOpen = false) :
    ∃ w, e.visit overrides t restLower restUpper bound = .ok w := by
  obtain ⟨s, -, heq⟩ := visit_cases h hr hw restLower restUpper bound
  obtain ⟨h1, h2⟩ := isOpen_eq_false_iff.mp ho
  have hall : ∀ dir, (o.startBound dir).isFinite = true := by
    intro dir
    cases dir
    · exact h1
    · exact h2
  rw [heq, hall, hall]
  exact ⟨_, rfl⟩

end Visit

end ThresholdEncoding.Encoder
