import ThresholdEncoding.Proofs.Encoder.Literal

/-!
# Bounds of sums

Every term of a constraint comes with the bounds of its value. As long as weights times radii stay
small, these bounds and the sums of them are exact, so they bound the exact sum of the terms.

* `Encoder.totalReach`: how far a sum of terms can be from `0`, as far as bounds are finite.
* `lower_sum`, `upper_sum`: the bounds of a sum.
-/

namespace ThresholdEncoding.Encoder

open Domain

variable (e : Encoder) (overrides : Overrides)

/-- The largest magnitude of a finite bound of a domain that is consulted for a variable. -/
def radius (x : IntVar) : Nat :=
  max ((e.table.domain? x).elim 0 Domain.radius) ((overrides x).elim 0 Domain.radius)

/-- The largest magnitude of a finite bound of a term. -/
def reach (t : Term) : Nat := t.weight.natAbs * e.radius overrides t.var

/-- The sum of the largest magnitudes. -/
def totalReach (ts : List Term) : Nat := (ts.map (e.reach overrides)).sum

/-- A term that can be encoded, with the bounds over the domain `d` of its variable. -/
structure Weighed (b : BoundedTerm) (d : Domain) : Prop where
  regular : e.Regular overrides b.term.var d
  weight_ne_zero : b.term.weight ≠ 0
  reach_lt : e.reach overrides b.term < 4611686018427387904
  lower_eq : b.lower = (d.startBound b.term.direction).scale b.term.weight
  upper_eq : b.upper = (d.startBound b.term.direction.reverse).scale b.term.weight

variable {e : Encoder} {overrides : Overrides} {d : Domain} {b : BoundedTerm} {ν : Valuation}
variable {t : Term} {x : IntVar} {bs : List BoundedTerm}

@[simp] theorem totalReach_nil : e.totalReach overrides [] = 0 := rfl

@[simp] theorem totalReach_cons {ts : List Term} :
    e.totalReach overrides (t :: ts) = e.reach overrides t + e.totalReach overrides ts := by
  simp [totalReach]

theorem radius_le (h : e.table.domain? x = some d) : d.radius ≤ e.radius overrides x := by
  unfold radius; rw [h]; exact le_max_left _ _

theorem radius_le_of_override {o : Domain} (h : overrides x = some o) :
    o.radius ≤ e.radius overrides x := by
  unfold radius; rw [h]; exact le_max_right _ _

theorem magnitude_startBound_le (dir : Direction) : (d.startBound dir).magnitude ≤ d.radius := by
  cases dir
  · exact le_max_left _ _
  · exact le_max_right _ _

theorem direction_cases (hw : t.weight ≠ 0) :
    (t.direction = .ascending ∧ 0 < t.weight) ∨ (t.direction = .descending ∧ t.weight < 0) := by
  unfold Term.direction Direction.ofStep
  split_ifs with h
  · exact Or.inl ⟨rfl, h⟩
  · exact Or.inr ⟨rfl, by omega⟩

/-- The value further in the direction of a term contributes more. -/
theorem mul_lt_mul_of_precedes {u v : Int} (hw : t.weight ≠ 0) (h : t.direction.Precedes u v) :
    t.weight * u < t.weight * v := by
  rcases direction_cases hw with ⟨hdir, hpos⟩ | ⟨hdir, hneg⟩ <;> rw [hdir] at h
  · exact mul_lt_mul_of_pos_left h hpos
  · exact mul_lt_mul_of_neg_left h hneg

/-- The value that is not further contributes no more. -/
theorem mul_le_mul_of_not_precedes {u v : Int} (hw : t.weight ≠ 0)
    (h : ¬ t.direction.Precedes u v) : t.weight * v ≤ t.weight * u := by
  rcases direction_cases hw with ⟨hdir, hpos⟩ | ⟨hdir, hneg⟩ <;> rw [hdir] at h
  · exact mul_le_mul_of_nonneg_left (not_lt.mp h) hpos.le
  · exact mul_le_mul_of_nonpos_left (not_lt.mp h) hneg.le

theorem bounded_eq (hx : e.table.domain? t.var = some d) (hw : t.weight ≠ 0) :
    e.bounded t = .ok ⟨t, (d.startBound t.direction).scale t.weight,
      (d.startBound t.direction.reverse).scale t.weight⟩ := by
  unfold bounded
  rw [domain_eq_ok hx]
  show (.ok _ : Except EncodeError BoundedTerm) = _
  rcases direction_cases hw with ⟨hdir, hpos⟩ | ⟨hdir, hneg⟩
  · simp only [hdir, if_pos hpos]; rfl
  · simp only [hdir, if_neg (not_lt.mpr hneg.le)]; rfl

namespace Weighed

variable (h : e.Weighed overrides b d)
include h

theorem radius_lt : e.radius overrides b.term.var < 4611686018427387904 := by
  have h1 := h.reach_lt
  have h2 := Int.natAbs_pos.mpr h.weight_ne_zero
  exact lt_of_le_of_lt (Nat.le_mul_of_pos_left _ h2) h1

theorem domain_radius_lt : d.radius < 4611686018427387904 :=
  lt_of_le_of_lt (radius_le h.regular.domain_eq) h.radius_lt

/-- A finite bound of the domain gives an exact and small bound of the term. -/
theorem scale_startBound {dir : Direction} {n : Int} (hn : d.startBound dir = .fin n) :
    (d.startBound dir).scale b.term.weight = .fin (b.term.weight * n) ∧
      (b.term.weight * n).natAbs ≤ e.reach overrides b.term := by
  have h1 := magnitude_startBound_le (d := d) dir
  rw [hn, Extended.magnitude_fin] at h1
  have h2 : (b.term.weight * n).natAbs ≤ e.reach overrides b.term := by
    rw [Int.natAbs_mul]
    exact Nat.mul_le_mul_left _ (le_trans h1 (radius_le h.regular.domain_eq))
  have h3 := h.reach_lt
  have h4 : Word.Fits (n * b.term.weight) := by
    rw [mul_comm]
    exact Word.fits_of_natAbs_lt (by omega)
  rw [hn, Extended.scale_fin_of_fits h4, mul_comm n]
  exact ⟨rfl, h2⟩

/-- An infinite bound gives the infinity on its side of the term. -/
theorem scale_cases (dir : Direction) :
    (d.startBound dir).scale b.term.weight =
      (if dir = b.term.direction then .negInf else .posInf) ∨
    ∃ n, d.startBound dir = .fin n ∧
      (d.startBound dir).scale b.term.weight = .fin (b.term.weight * n) ∧
      (b.term.weight * n).natAbs ≤ e.reach overrides b.term := by
  have hb := h.regular.valid.bounded h.regular.simple
  have hneg : dir = .ascending → d.startBound dir ≠ .posInf := by rintro rfl; exact hb.lower_ne
  have hpos : dir = .descending → d.startBound dir ≠ .negInf := by rintro rfl; exact hb.upper_ne
  cases hn : d.startBound dir with
  | fin n =>
    have := h.scale_startBound hn
    rw [hn] at this
    exact Or.inr ⟨n, rfl, this⟩
  | negInf =>
    have hdir : dir = .ascending := by cases dir <;> simp_all
    refine Or.inl ?_
    rcases direction_cases h.weight_ne_zero with ⟨hd, hw⟩ | ⟨hd, hw⟩
    · rw [hd, hdir, Extended.scale_negInf, if_pos hw]; rfl
    · rw [hd, hdir, Extended.scale_negInf, if_neg (by omega)]; rfl
  | posInf =>
    have hdir : dir = .descending := by cases dir <;> simp_all
    refine Or.inl ?_
    rcases direction_cases h.weight_ne_zero with ⟨hd, hw⟩ | ⟨hd, hw⟩
    · rw [hd, hdir, Extended.scale_posInf, if_pos hw]; rfl
    · rw [hd, hdir, Extended.scale_posInf, if_neg (by omega)]; rfl

theorem lower_cases : b.lower = .negInf ∨ ∃ n, d.startBound b.term.direction = .fin n ∧
    b.lower = .fin (b.term.weight * n) ∧
      (b.term.weight * n).natAbs ≤ e.reach overrides b.term := by
  have := h.scale_cases b.term.direction
  rwa [if_pos rfl, ← h.lower_eq] at this

theorem upper_cases : b.upper = .posInf ∨ ∃ n, d.startBound b.term.direction.reverse = .fin n ∧
    b.upper = .fin (b.term.weight * n) ∧
      (b.term.weight * n).natAbs ≤ e.reach overrides b.term := by
  have := h.scale_cases b.term.direction.reverse
  rwa [if_neg (by cases b.term.direction <;> simp [Direction.reverse]), ← h.upper_eq] at this

/-- The value of the term lies between its bounds. -/
theorem between (hν : d.Admits (ν.int b.term.var)) :
    b.lower ≤ .fin (b.term.weight * ν.int b.term.var) ∧
      .fin (b.term.weight * ν.int b.term.var) ≤ b.upper := by
  obtain ⟨h1, h2⟩ := h.regular.valid.between hν.1
  constructor
  · rcases h.lower_cases with hl | ⟨n, hn, hl, -⟩
    · rw [hl]; exact Extended.negInf_le
    · rw [hl, Extended.fin_le_fin]
      rcases direction_cases h.weight_ne_zero with ⟨hdir, hpos⟩ | ⟨hdir, hneg⟩ <;> rw [hdir] at hn
      · rw [show d.lower = .fin n from hn, Extended.fin_le_fin] at h1
        exact mul_le_mul_of_nonneg_left h1 hpos.le
      · rw [show d.upper = .fin n from hn, Extended.fin_le_fin] at h2
        exact mul_le_mul_of_nonpos_left h2 hneg.le
  · rcases h.upper_cases with hu | ⟨n, hn, hu, -⟩
    · rw [hu]; exact Extended.le_posInf
    · rw [hu, Extended.fin_le_fin]
      rcases direction_cases h.weight_ne_zero with ⟨hdir, hpos⟩ | ⟨hdir, hneg⟩ <;> rw [hdir] at hn
      · rw [show d.upper = .fin n from hn, Extended.fin_le_fin] at h2
        exact mul_le_mul_of_nonneg_left h2 hpos.le
      · rw [show d.lower = .fin n from hn, Extended.fin_le_fin] at h1
        exact mul_le_mul_of_nonpos_left h1 hneg.le

end Weighed

/-! ### Sums -/

theorem natAbs_sum_le (ns : List Int) :
    ns.sum.natAbs ≤ Extended.totalMagnitude (ns.map Extended.fin) := by
  induction ns with
  | nil => simp
  | cons n ns ih =>
    rw [List.sum_cons, List.map_cons, Extended.totalMagnitude_cons, Extended.magnitude_fin]
    omega

/-- Every variable of a list of terms takes a value of its domain. -/
def Admits (e : Encoder) (ν : Valuation) (ts : List Term) : Prop :=
  ∀ t ∈ ts, ∀ d, e.table.domain? t.var = some d → d.Admits (ν.int t.var)

theorem admits_cons {ts : List Term} : e.Admits ν (t :: ts) ↔
    (∀ d, e.table.domain? t.var = some d → d.Admits (ν.int t.var)) ∧ e.Admits ν ts := by
  simp [Admits]

section Sums
variable (hbs : ∀ b ∈ bs, ∃ d, e.Weighed overrides b d)
include hbs

/-- Bounds of the terms on one side are added exactly unless one of them is infinite. -/
theorem sum_bounds {f : BoundedTerm → Extended} {inf : Extended} (hinf : inf.isFinite = false)
    (hf : ∀ b d, e.Weighed overrides b d →
      f b = inf ∨ ∃ n, f b = .fin n ∧ n.natAbs ≤ e.reach overrides b.term)
    (hM : e.totalReach overrides (bs.map (·.term)) < 9223372036854775808) :
    Extended.sum (bs.map f) = inf ∨ ∃ ns : List Int, bs.map f = ns.map Extended.fin ∧
      Extended.sum (bs.map f) = .fin ns.sum ∧
      ns.sum.natAbs ≤ e.totalReach overrides (bs.map (·.term)) := by
  have hmag : Extended.totalMagnitude (bs.map f) ≤ e.totalReach overrides (bs.map (·.term)) := by
    clear hM
    induction bs with
    | nil => simp
    | cons b bs ih =>
      obtain ⟨d, hd⟩ := hbs b (by simp)
      have h1 : (f b).magnitude ≤ e.reach overrides b.term := by
        rcases hf b d hd with h | ⟨n, h, hn⟩ <;> rw [h]
        · cases inf <;> simp at hinf ⊢
        · exact hn
      have h2 := ih fun b hb => hbs b (by simp [hb])
      simp only [List.map_cons, Extended.totalMagnitude_cons, totalReach_cons]
      omega
  have hall : ∀ x ∈ bs.map f, x = inf ∨ x.isFinite = true := by
    intro x hx
    obtain ⟨b, hb, rfl⟩ := List.mem_map.mp hx
    obtain ⟨d, hd⟩ := hbs b hb
    rcases hf b d hd with h | ⟨n, h, -⟩
    · exact Or.inl h
    · exact Or.inr (by rw [h]; rfl)
  rcases Extended.sum_cases hinf hall (by omega) with ⟨-, h⟩ | ⟨ns, h1, h2⟩
  · exact Or.inl h
  · refine Or.inr ⟨ns, h1, h2, ?_⟩
    have := natAbs_sum_le ns
    rw [← h1] at this
    omega

/-- The terms lie between bounds that are finite. -/
theorem sum_between (hν : e.Admits ν (bs.map (·.term))) (ns : List Int) :
    (bs.map (·.lower) = ns.map Extended.fin → ns.sum ≤ ν.sum (bs.map (·.term))) ∧
      (bs.map (·.upper) = ns.map Extended.fin → ν.sum (bs.map (·.term)) ≤ ns.sum) := by
  induction bs generalizing ns with
  | nil => cases ns <;> simp
  | cons b bs ih =>
    obtain ⟨d, hd⟩ := hbs b (by simp)
    rw [List.map_cons, admits_cons] at hν
    obtain ⟨hlow, hup⟩ := hd.between (hν.1 d hd.regular.domain_eq)
    have ih := ih (fun b hb => hbs b (by simp [hb])) hν.2
    cases ns with
    | nil => simp
    | cons n ns =>
      simp only [List.map_cons, List.cons.injEq, List.sum_cons, Valuation.sum_cons]
      constructor
      · rintro ⟨h1, h2⟩
        rw [h1, Extended.fin_le_fin] at hlow
        have := (ih ns).1 h2
        omega
      · rintro ⟨h1, h2⟩
        rw [h1, Extended.fin_le_fin] at hup
        have := (ih ns).2 h2
        omega

variable (hM : e.totalReach overrides (bs.map (·.term)) < 9223372036854775808)
include hM

/-- **The lower bound of a sum** is exact or infinite. -/
theorem lower_sum : Extended.sum (bs.map (·.lower)) = .negInf ∨
    ∃ n, Extended.sum (bs.map (·.lower)) = .fin n ∧
      n.natAbs ≤ e.totalReach overrides (bs.map (·.term)) ∧
      ∀ ν, e.Admits ν (bs.map (·.term)) → n ≤ ν.sum (bs.map (·.term)) := by
  rcases sum_bounds hbs (f := (·.lower)) Extended.isFinite_negInf
    (fun b d hd => hd.lower_cases.imp_right fun ⟨n, _, h⟩ => ⟨_, h⟩) hM with h | ⟨ns, h1, h2, h3⟩
  · exact Or.inl h
  · exact Or.inr ⟨_, h2, h3, fun ν hν => (sum_between hbs hν ns).1 h1⟩

/-- **The upper bound of a sum** is exact or infinite. -/
theorem upper_sum : Extended.sum (bs.map (·.upper)) = .posInf ∨
    ∃ n, Extended.sum (bs.map (·.upper)) = .fin n ∧
      n.natAbs ≤ e.totalReach overrides (bs.map (·.term)) ∧
      ∀ ν, e.Admits ν (bs.map (·.term)) → ν.sum (bs.map (·.term)) ≤ n := by
  rcases sum_bounds hbs (f := (·.upper)) Extended.isFinite_posInf
    (fun b d hd => hd.upper_cases.imp_right fun ⟨n, _, h⟩ => ⟨_, h⟩) hM with h | ⟨ns, h1, h2, h3⟩
  · exact Or.inl h
  · exact Or.inr ⟨_, h2, h3, fun ν hν => (sum_between hbs hν ns).2 h1⟩

end Sums

end ThresholdEncoding.Encoder
