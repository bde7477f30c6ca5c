import ThresholdEncoding.Proofs.Encoder.Equivalence

/-!
# Clauses are consequences of the constraint

With large numbers a computation may be refused or saturate, and a foreign domain may lack values of
a variable, so the encoding can be missing or too weak. It is never too strong: whatever numbers and
domains are involved, an assignment that makes the constraint true makes every clause true.

* `Encoder.InDomains`: an assignment keeps to the domains of the table.
* `evaluate_sumClauses`: the clauses for a sum follow from the bound, by induction on the terms.
* `encodeOver_sound`: the clauses for a constraint follow from it.
-/

namespace ThresholdEncoding

variable {a : Assignment}

/-! ### Truth under a partial assignment -/

theorem Term.sum?_cons_eq_some_iff {t : Term} {ts : List Term} {n : Int} :
    Term.sum? a (t :: ts) = some n ↔
      ∃ u s, a.int? t.var = some u ∧ Term.sum? a ts = some s ∧ t.weight * u + s = n := by
  simp only [Term.sum?, Term.value?, Option.bind_eq_some_iff, Option.map_eq_some_iff]
  constructor
  · rintro ⟨_, ⟨u, hu, rfl⟩, s, hs, hn⟩; exact ⟨u, s, hu, hs, hn⟩
  · rintro ⟨u, s, hu, hs, hn⟩; exact ⟨_, ⟨u, hu, rfl⟩, s, hs, hn⟩

theorem LinearConstraint.evaluate_eq_some_true_iff {c : LinearConstraint} :
    c.evaluate a = some true ↔ ∃ n, Term.sum? a c.terms = some n ∧
      (c.bound ≤ n ∨ ∃ r, c.reification = some r ∧ a.lit? r.lit = some true) := by
  unfold evaluate
  rw [Option.bind_eq_some_iff]
  refine exists_congr fun n => and_congr_right fun _ => ?_
  split_ifs with hle
  · simp [hle]
  · cases c.reification with
    | none => simp [hle]
    | some r => simp [hle]

namespace Encoder

variable {e : Encoder} {overrides : Overrides} {b next : BoundedTerm} {bs rest : List BoundedTerm}
variable {bound n : Int} {cs : List Clause} {t : Term} {ts : List Term}

/-- The values that an assignment gives to the variables of terms are values of their domains. -/
def InDomains (e : Encoder) (a : Assignment) (ts : List Term) : Prop :=
  ∀ t ∈ ts, ∀ d v, e.table.domain? t.var = some d → a.int? t.var = some v → d.Admits v

theorem inDomains_cons : e.InDomains a (t :: ts) ↔
    (∀ d v, e.table.domain? t.var = some d → a.int? t.var = some v → d.Admits v) ∧
      e.InDomains a ts := by
  simp [InDomains]

/-! ### Sums -/

/-- The clauses for one value of a leading variable follow if those for the rest do: an assignment
in which the variable does not lie beyond the value leaves to the rest what the value leaves to
it, or more. -/
theorem evaluate_valueClauses {d : Domain} {u v s : Int} (hd : e.Roundable t.var d)
    (hw : t.weight ≠ 0) (hu : a.int? t.var = some u) (hdu : d.Admits u)
    (hle : bound ≤ t.weight * u + s) (hv : Word.Fits v)
    (ih : ∀ bound ds, Word.Fits bound → bound ≤ s →
      (e.sumClauses overrides rest bound).value = .ok ds → ∀ c ∈ ds, c.evaluate a = some true)
    (h : (e.valueClauses overrides t rest bound v (t.weight * v)).value = .ok cs) :
    ∀ c ∈ cs, c.evaluate a = some true := by
  obtain ⟨l, ds, hl, hfits, hds, rfl⟩ := valueClauses_eq_ok_iff.mp h
  intro clause hclause
  obtain ⟨c, hc, rfl⟩ := List.mem_map.mp hclause
  rw [Clause.evaluate_eq_some_true_iff]
  by_cases hprec : t.direction.Precedes v u
  · exact ⟨l, by simp, (evaluate_leadingLiteral hd hu hdu hv rfl hl).mpr hprec⟩
  · have hmul := mul_le_mul_of_not_precedes hw hprec
    obtain ⟨l', hl', htrue⟩ :=
      Clause.evaluate_eq_some_true_iff.mp (ih _ ds hfits (by omega) hds c hc)
    exact ⟨l', List.mem_cons_of_mem _ hl', htrue⟩

/-- **The clauses for a sum follow from the bound.** Residual bounds are checked, so the bound of
what remains is a number of the range at every step. -/
theorem evaluate_sumClauses
    (hbs : ∀ b ∈ bs, b.term.weight ≠ 0 ∧ ∃ d, e.Roundable b.term.var d)
    (ha : e.InDomains a (bs.map (·.term))) (hbound : Word.Fits bound)
    (hn : Term.sum? a (bs.map (·.term)) = some n) (hle : bound ≤ n)
    (h : (e.sumClauses overrides bs bound).value = .ok cs) :
    ∀ c ∈ cs, c.evaluate a = some true := by
  induction bs generalizing bound n cs with
  | nil =>
    obtain rfl : 0 = n := Option.some.inj hn
    rw [value_sumClauses_nil, if_pos hle] at h
    cases h
    simp
  | cons b bs ih =>
    obtain ⟨⟨hw, d, hd⟩, hrest⟩ := List.forall_mem_cons.mp hbs
    rw [List.map_cons, inDomains_cons] at ha
    obtain ⟨u, s, hu, hs, rfl⟩ := Term.sum?_cons_eq_some_iff.mp hn
    have hdu := ha.1 d u hd.domain_eq hu
    cases bs with
    | nil =>
      obtain rfl : 0 = s := Option.some.inj hs
      rw [value_sumClauses_single] at h
      obtain ⟨l, hl, h⟩ := Except.bind_eq_ok_iff.mp h
      cases h
      rw [add_zero] at hle
      have htrue := (evaluate_lastLiteral hd hu hdu hbound rfl hw hl).mpr hle
      simpa [Clause.evaluate_eq_some_true_iff] using htrue
    | cons next rest =>
      rw [value_sumClauses_cons] at h
      obtain ⟨w, -, hwalk⟩ := Except.bind_eq_ok_iff.mp h
      refine forall_mem_of_walk (fun v l hv hl => ?_) hwalk
      exact evaluate_valueClauses hd hw hu hdu hle hv
        (fun bound ds hfits hle' hds => ih hrest ha.2 hfits hs hle' hds) hl

/-! ### Constraints -/

theorem bounded_eq_ok (h : e.bounded t = .ok b) :
    b.term = t ∧ ∃ d, e.table.domain? t.var = some d := by
  unfold bounded domain at h
  cases hd : e.table.domain? t.var with
  | none => rw [hd] at h; cases h
  | some d =>
    rw [hd] at h
    refine ⟨?_, d, rfl⟩
    have h' := (Except.ok.inj h).symm
    split_ifs at h' <;> rw [h']

/-- Terms that can be bounded are terms over the variables of the table. -/
theorem bounded_of_mapM (h : ts.mapM e.bounded = .ok bs) :
    bs.map (·.term) = ts ∧ ∀ b ∈ bs, ∃ d, e.table.domain? b.term.var = some d := by
  induction List.mapM_eq_ok_iff.mp h with
  | nil => simp
  | cons hb _ ih =>
    obtain ⟨rfl, hd⟩ := bounded_eq_ok hb
    obtain ⟨ih1, ih2⟩ := ih (List.mapM_eq_ok_iff.mpr ‹_›)
    exact ⟨by rw [List.map_cons, ih1], List.forall_mem_cons.mpr ⟨hd, ih2⟩⟩

/-- The clauses of a constraint are those for its sum, with the attached literal. -/
theorem encodeOver_eq_clauses {c : LinearConstraint}
    (h : (e.encodeOver overrides c).value = .ok (.clauses cs)) :
    ∃ bs ds, c.terms.mapM e.bounded = .ok bs ∧ (e.sumClauses overrides bs c.bound).value = .ok ds ∧
      cs = ds.map (· ++ (c.reification.map fun r => Literal.bool r.lit).toList) := by
  obtain ⟨bs, ds, hbs, -, hds, hcs⟩ := encodeOver_eq_clauses_iff.mp h
  exact ⟨bs, ds, hbs, hds, hcs⟩

/-- **Emitted clauses are consequences of the constraint**, whatever the magnitudes of weights,
bounds and values are, and over whatever domains the values of some variables are visited. -/
theorem encodeOver_sound (e : Encoder) (overrides : Overrides) (c : LinearConstraint)
    (hdomains : ∀ t ∈ c.terms, ∀ d, e.table.domain? t.var = some d →
      d.Valid ∧ (d.isOpen = false ∨ d.isInterval = true))
    (hweights : ∀ t ∈ c.terms, t.weight ≠ 0) (hbound : Word.Fits c.bound) (cs : List Clause)
    (hcs : (e.encodeOver overrides c).value = .ok (.clauses cs)) (a : Assignment)
    (ha : e.InDomains a c.terms) (hc : c.evaluate a = some true) :
    ∀ clause ∈ cs, clause.evaluate a = some true := by
  obtain ⟨bs, ds, hbs, hds, rfl⟩ := encodeOver_eq_clauses hcs
  obtain ⟨hterms, hdeclared⟩ := bounded_of_mapM hbs
  obtain ⟨n, hn, hle | ⟨r, hr, hlit⟩⟩ := LinearConstraint.evaluate_eq_some_true_iff.mp hc
  · -- the sum reaches the bound, so a literal before the attached one is true
    have hround : ∀ b ∈ bs, b.term.weight ≠ 0 ∧ ∃ d, e.Roundable b.term.var d := by
      intro b hb
      obtain ⟨d, hd⟩ := hdeclared b hb
      have hb' : b.term ∈ c.terms := by rw [← hterms]; exact List.mem_map_of_mem hb
      obtain ⟨hvalid, hsimple⟩ := hdomains _ hb' d hd
      exact ⟨hweights _ hb', d, hd, hvalid, hsimple⟩
    rw [← hterms] at ha hn
    have htrue := evaluate_sumClauses hround ha hbound hn hle hds
    intro clause hclause
    obtain ⟨c', hc', rfl⟩ := List.mem_map.mp hclause
    obtain ⟨l, hl, hl'⟩ := Clause.evaluate_eq_some_true_iff.mp (htrue c' hc')
    exact Clause.evaluate_eq_some_true_iff.mpr ⟨l, List.mem_append_left _ hl, hl'⟩
  · -- the attached literal is true, and it is in every clause
    intro clause hclause
    obtain ⟨c', -, rfl⟩ := List.mem_map.mp hclause
    exact Clause.evaluate_eq_some_true_iff.mpr ⟨.bool r.lit, by simp [hr], hlit⟩

/-- Two variables whose values reach to the ends of the range. -/
def wideEncoder : Encoder where
  table := { ints := [⟨.interval (.fin 10) (.fin 9223372036854775807), false⟩,
    ⟨{ shape := .listed [-9223372036854775807, 0, 7] }, false⟩] }

/-- The constraint `x₁ - x₂ ≥ 12`, excused by the first boolean variable. -/
def wideConstraint : LinearConstraint where
  terms := [⟨⟨0, false⟩, 1⟩, ⟨⟨1, false⟩, -1⟩]
  bound := 12
  reification := some ⟨⟨0, true⟩, true⟩

/-- Visits the first variable over values of which one is not in its domain. -/
def wideOverrides : Overrides := fun x =>
  if x = ⟨0, false⟩ then some { shape := .listed [-9223372036854775795, 15] } else none

/-- The assignment of the greatest and the least value. -/
def wideAssignment : Assignment :=
  .ofLists [(⟨0, false⟩, 9223372036854775807), (⟨1, false⟩, -9223372036854775807)] []

/-- The clauses for the two visited values. -/
def wideClauses : List Clause :=
  [[.const true, .atLeast ⟨1, false⟩ 0 true true, .bool ⟨⟨0, true⟩, false⟩],
    [.atLeast ⟨0, false⟩ 16 false false, .atLeast ⟨1, false⟩ 7 true true,
      .bool ⟨⟨0, true⟩, false⟩]]

theorem encodeOver_sound_wide : wideEncoder.InDomains wideAssignment wideConstraint.terms ∧
    wideConstraint.evaluate wideAssignment = some true ∧
    (wideEncoder.encodeOver wideOverrides wideConstraint).value = .ok (.clauses wideClauses) ∧
    ∀ clause ∈ wideClauses, clause.evaluate wideAssignment = some true := by
  have hdomains : ∀ t ∈ wideConstraint.terms, ∀ d, wideEncoder.table.domain? t.var = some d →
      d.Valid ∧ (d.isOpen = false ∨ d.isInterval = true) := by
    intro t ht d hd
    rcases List.mem_cons.mp ht with rfl | ht
    · cases hd; decide
    · obtain rfl := List.mem_singleton.mp ht
      cases hd; decide
  have ha : wideEncoder.InDomains wideAssignment wideConstraint.terms := by
    intro t ht d v hd hv
    rcases List.mem_cons.mp ht with rfl | ht
    · cases hd
      cases hv
      exact ⟨⟨9223372036854775807, Shape.mem_interval_iff.mpr (by decide), by decide⟩, by decide⟩
    · obtain rfl := List.mem_singleton.mp ht
      cases hd
      cases hv
      exact ⟨⟨-9223372036854775807, Shape.mem_listed_iff.mpr (by decide), by decide⟩, by decide⟩
  have hc : wideConstraint.evaluate wideAssignment = some true := by decide
  have hcs : (wideEncoder.encodeOver wideOverrides wideConstraint).value =
      .ok (.clauses wideClauses) := by decide +kernel
  exact ⟨ha, hc, hcs, encodeOver_sound wideEncoder wideOverrides wideConstraint hdomains
    (by decide) (by decide) wideClauses hcs wideAssignment ha hc⟩

end Encoder

end ThresholdEncoding
