import ThresholdEncoding.Proofs.Encoder.Visited

/-!
# Raw and rounded thresholds

Whether thresholds are rounded to values of the domains has no influence on which values are visited
and in which order, on what is reported as infeasible, and on when clauses are left out. Clause by
clause, the encoding with rounded thresholds is the one with raw thresholds, rounded afterwards.

Only a failure can come earlier. The literal that excuses a leading variable from a value is rounded
before the clauses for the rest are known, and if there are none, this literal occurs nowhere.

* `Encoder.rounding`, `Encoder.raw`: the encoder in both modes.
* `rounded`, `roundedClauses`: what becomes of raw literals.
* `Unused`: the literals that are asked for and occur nowhere.
* `encodeOver_rounding`: both modes agree.
* `fails_without_clauses`: a literal that occurs nowhere cannot be rounded.
-/

namespace ThresholdEncoding.Encoder

/-- The encoder with rounded thresholds. -/
def rounding (e : Encoder) : Encoder :=
  { e with options := { e.options with roundThresholds := true } }

/-- The encoder with raw thresholds. -/
def raw (e : Encoder) (keep : Bool) : Encoder :=
  { e with options := { e.options with roundThresholds := false, keepThresholds := keep } }

/-- The literal that is written instead of a raw one. Other literals stay. -/
def rounded (e : Encoder) : Literal → Except EncodeError Literal
  | .raw x threshold negated none => e.rounding.thresholdLiteral negated x threshold
  | l => .ok l

/-- The clauses with all raw literals rounded. -/
def roundedClauses (e : Encoder) (cs : List Clause) : Except EncodeError (List Clause) :=
  cs.mapM fun c => c.mapM e.rounded

/-- A literal is asked for to excuse a leading variable from a value, but goes into no clause, as
the rest needs no clauses. -/
def Unused (e : Encoder) (overrides : Overrides) : List BoundedTerm → Int → Literal → Prop
  | b :: next :: rest, bound, l => ∃ us, e.Visits overrides b (next :: rest) bound us ∧ ∃ u ∈ us,
      (e.leadingLiteral b.term u = .ok l ∧
        (e.sumClauses overrides (next :: rest) (bound - b.term.weight * u)).value = .ok []) ∨
      e.Unused overrides (next :: rest) (bound - b.term.weight * u) l
  | _, _, _ => False

/-- A literal is asked for in the encoding of a constraint, but goes into no clause. -/
def UnusedIn (e : Encoder) (overrides : Overrides) (c : LinearConstraint) (l : Literal) : Prop :=
  ∃ bs, c.terms.mapM e.bounded = .ok bs ∧ e.Unused overrides bs c.bound l

variable {e : Encoder} {keep : Bool} {overrides : Overrides} {t : Term} {c : LinearConstraint}
variable {b next : BoundedTerm} {bs rest : List BoundedTerm} {bound v contribution threshold : Int}
variable {negated : Bool} {x : IntVar} {l l' : Literal} {cs ds rs : List Clause}

/-! ### Literals -/

theorem thresholdLiteral_rounding : e.rounding.thresholdLiteral negated x threshold =
    (e.raw keep).thresholdLiteral negated x threshold >>= e.rounded := rfl

/-- The literals of both modes are the same but for the rounding, constants included. -/
theorem leadingLiteral_rounding (keep : Bool) : e.rounding.leadingLiteral t v =
    (e.raw keep).leadingLiteral t v >>= e.rounded := by
  unfold leadingLiteral
  split
  · split
    · exact thresholdLiteral_rounding
    · rfl
  · exact thresholdLiteral_rounding

theorem lastLiteral_rounding (keep : Bool) : e.rounding.lastLiteral t bound =
    (e.raw keep).lastLiteral t bound >>= e.rounded := by
  unfold lastLiteral
  split
  · exact thresholdLiteral_rounding
  · split
    · exact thresholdLiteral_rounding
    · rfl

/-! ### Clauses -/

/-- An attached literal is none that could be rounded. -/
theorem mapM_rounded_attached (clause : Clause) : (clause ++ attached c).mapM e.rounded =
    (clause.mapM e.rounded).map (· ++ attached c) := by
  have hattached : (attached c).mapM e.rounded = .ok (attached c) := by
    unfold attached
    cases c.reification <;> rfl
  rw [List.mapM_append, hattached]
  cases clause.mapM e.rounded <;> rfl

theorem mapM_rounded_cons (hl : e.rounded l = .ok l') (clause : Clause) :
    (l :: clause).mapM e.rounded = (clause.mapM e.rounded).map (l' :: ·) := by
  rw [List.mapM_cons, hl, Except.ok_bind]
  cases clause.mapM e.rounded <;> rfl

/-- **A literal in front of all clauses has to be rounded**, unless there are no clauses. -/
theorem roundedClauses_map_cons_iff : (∃ l' ds, e.rounded l = .ok l' ∧
      e.roundedClauses rs = .ok ds ∧ cs = ds.map (l' :: ·)) ↔
    e.roundedClauses (rs.map (l :: ·)) = .ok cs ∧ (rs = [] → ∃ l', e.rounded l = .ok l') := by
  constructor
  · rintro ⟨l', ds, hl, hds, rfl⟩
    exact ⟨(List.mapM_map_eq_ok_iff (mapM_rounded_cons hl)).mpr ⟨ds, hds, rfl⟩, fun _ => ⟨l', hl⟩⟩
  · rintro ⟨hcs, hnil⟩
    obtain ⟨l', hl⟩ : ∃ l', e.rounded l = .ok l' := by
      cases rs with
      | nil => exact hnil rfl
      | cons clause rs =>
        rw [roundedClauses, List.map_cons, List.mapM_cons, List.mapM_cons] at hcs
        obtain ⟨_, hclause, -⟩ := Except.bind_eq_ok_iff.mp hcs
        obtain ⟨l', hl, -⟩ := Except.bind_eq_ok_iff.mp hclause
        exact ⟨l', hl⟩
    obtain ⟨ds, hds, rfl⟩ := (List.mapM_map_eq_ok_iff (mapM_rounded_cons hl)).mp hcs
    exact ⟨l', ds, hl, hds, rfl⟩

theorem roundedClauses_single :
    e.roundedClauses [[l]] = e.rounded l >>= fun l' => .ok [[l']] := by
  rw [roundedClauses, List.mapM_cons, List.mapM_cons]
  cases e.rounded l <;> rfl

/-! ### Sums -/

theorem visits_rounding_iff {us : List Int} : e.rounding.Visits overrides b rest bound us ↔
    (e.raw keep).Visits overrides b rest bound us := Iff.rfl

/-- The clauses of one value agree if those for the rest do. -/
theorem valueClauses_rounding_iff (keep : Bool)
    (ih : ∀ bound cs, (e.rounding.sumClauses overrides rest bound).value = .ok cs ↔
      ∃ rs, ((e.raw keep).sumClauses overrides rest bound).value = .ok rs ∧
        e.roundedClauses rs = .ok cs ∧
        ∀ l, (e.raw keep).Unused overrides rest bound l → ∃ l', e.rounded l = .ok l') :
    (e.rounding.valueClauses overrides t rest bound v contribution).value = .ok cs ↔
      ∃ rs, ((e.raw keep).valueClauses overrides t rest bound v contribution).value = .ok rs ∧
        e.roundedClauses rs = .ok cs ∧
        ∀ l, ((e.raw keep).leadingLiteral t v = .ok l ∧
            ((e.raw keep).sumClauses overrides rest (bound - contribution)).value = .ok []) ∨
          (e.raw keep).Unused overrides rest (bound - contribution) l →
          ∃ l', e.rounded l = .ok l' := by
  simp only [valueClauses_eq_ok_iff, leadingLiteral_rounding keep, ih,
    Except.bind_eq_ok_iff]
  constructor
  · rintro ⟨l', ds, ⟨l, hl, hl'⟩, hfits, ⟨rs, hrs, hds, hunused⟩, hcs⟩
    obtain ⟨himage, -⟩ := roundedClauses_map_cons_iff.mp ⟨l', ds, hl', hds, hcs⟩
    refine ⟨_, ⟨l, rs, hl, hfits, hrs, rfl⟩, himage, ?_⟩
    rintro m (⟨hm, -⟩ | hm)
    · rw [hl] at hm
      cases hm
      exact ⟨l', hl'⟩
    · exact hunused m hm
  · rintro ⟨_, ⟨l, rs, hl, hfits, hrs, rfl⟩, himage, hunused⟩
    have hnil : rs = [] → ∃ l', e.rounded l = .ok l' := by
      rintro rfl
      exact hunused l (Or.inl ⟨hl, hrs⟩)
    obtain ⟨l', ds, hl', hds, hcs⟩ := roundedClauses_map_cons_iff.mpr ⟨himage, hnil⟩
    exact ⟨l', ds, ⟨l, hl, hl'⟩, hfits, ⟨rs, hrs, hds, fun m hm => hunused m (Or.inr hm)⟩, hcs⟩

/-- **For a sum, both modes agree.** -/
theorem sumClauses_rounding_iff (keep : Bool) :
    (e.rounding.sumClauses overrides bs bound).value = .ok cs ↔
      ∃ rs, ((e.raw keep).sumClauses overrides bs bound).value = .ok rs ∧
        e.roundedClauses rs = .ok cs ∧
        ∀ l, (e.raw keep).Unused overrides bs bound l → ∃ l', e.rounded l = .ok l' := by
  induction bs generalizing bound cs with
  | nil =>
    have hsame : e.roundedClauses (if bound ≤ 0 then [] else [[]]) =
        .ok (if bound ≤ 0 then [] else [[]]) := by
      split_ifs <;> rfl
    rw [value_sumClauses_nil, value_sumClauses_nil]
    constructor
    · intro h
      cases h
      exact ⟨_, rfl, hsame, fun l hl => hl.elim⟩
    · rintro ⟨rs, h, hcs, -⟩
      cases h
      exact hsame.symm.trans hcs
  | cons b bs ih =>
    cases bs with
    | nil =>
      rw [value_sumClauses_single, value_sumClauses_single, lastLiteral_rounding keep]
      constructor
      · intro h
        obtain ⟨l', hl', h⟩ := Except.bind_eq_ok_iff.mp h
        obtain ⟨l, hl, hl'⟩ := Except.bind_eq_ok_iff.mp hl'
        cases h
        refine ⟨[[l]], by rw [hl]; rfl, ?_, fun l hl => hl.elim⟩
        rw [roundedClauses_single, hl', Except.ok_bind]
      · rintro ⟨rs, h, hcs, -⟩
        obtain ⟨l, hl, h⟩ := Except.bind_eq_ok_iff.mp h
        cases h
        rw [roundedClauses_single] at hcs
        rw [hl, Except.ok_bind]
        exact hcs
    | cons next rest =>
      rw [sumClauses_eq_ok_iff]
      constructor
      · rintro ⟨us, css, hus, hcss, rfl⟩
        obtain ⟨rss, hrss, himage, hunused⟩ := (List.mapM_stages_eq_ok_iff fun u _ _ =>
          valueClauses_rounding_iff keep fun _ _ => ih).mp hcss
        refine ⟨rss.flatten, sumClauses_eq_ok_iff.mpr ⟨us, rss, hus, hrss, rfl⟩,
          List.mapM_flatten_eq_ok_iff.mpr ⟨css, himage, rfl⟩, ?_⟩
        rintro l ⟨us', hus', u, hu, hl⟩
        rw [hus'.unique (visits_rounding_iff.mp hus)] at hu
        exact hunused u hu l hl
      · rintro ⟨_, hrs, himage, hunused⟩
        obtain ⟨us, rss, hus, hrss, rfl⟩ := sumClauses_eq_ok_iff.mp hrs
        obtain ⟨css, hcss, rfl⟩ := List.mapM_flatten_eq_ok_iff.mp himage
        refine ⟨us, css, visits_rounding_iff.mpr hus, ?_, rfl⟩
        exact (List.mapM_stages_eq_ok_iff fun u _ _ => valueClauses_rounding_iff keep fun _ _ =>
          ih).mpr ⟨rss, hrss, hcss, fun u hu l hl => hunused l ⟨us, hus, u, hu, hl⟩⟩

/-! ### Constraints -/

/-- The encoding with rounded thresholds exists just when the one with raw thresholds does and all
literals that are asked for can be rounded. -/
theorem encodeOver_rounding_iff (keep : Bool) :
    (e.rounding.encodeOver overrides c).value = .ok (.clauses cs) ↔
      ∃ rs, ((e.raw keep).encodeOver overrides c).value = .ok (.clauses rs) ∧
        e.roundedClauses rs = .ok cs ∧
        ∀ l, (e.raw keep).UnusedIn overrides c l → ∃ l', e.rounded l = .ok l' := by
  constructor
  · intro h
    obtain ⟨bs, ds, hbs, hinf, hds, rfl⟩ := encodeOver_eq_clauses_iff.mp h
    obtain ⟨rs, hrs, himage, hunused⟩ := (sumClauses_rounding_iff keep).mp hds
    refine ⟨_, encodeOver_eq_clauses_iff.mpr ⟨bs, rs, hbs, hinf, hrs, rfl⟩,
      (List.mapM_map_eq_ok_iff mapM_rounded_attached).mpr ⟨ds, himage, rfl⟩, ?_⟩
    rintro l ⟨bs', hbs', hl⟩
    obtain rfl : bs = bs' := Except.ok.inj (hbs.symm.trans hbs')
    exact hunused l hl
  · rintro ⟨_, h, himage, hunused⟩
    obtain ⟨bs, rs, hbs, hinf, hrs, rfl⟩ := encodeOver_eq_clauses_iff.mp h
    obtain ⟨ds, hds, rfl⟩ := (List.mapM_map_eq_ok_iff mapM_rounded_attached).mp himage
    refine encodeOver_eq_clauses_iff.mpr ⟨bs, ds, hbs, hinf, ?_, rfl⟩
    exact (sumClauses_rounding_iff keep).mpr ⟨rs, hrs, hds, fun l hl => hunused l ⟨bs, hbs, hl⟩⟩

/-- **Both modes agree clause by clause.** An encoding with rounded thresholds is the one with raw
thresholds, rounded. An encoding with raw thresholds can be rounded if all its literals can, and with
them the literals that are asked for and occur nowhere. The same constraints are reported. -/
theorem encodeOver_rounding (e : Encoder) (keep : Bool) (overrides : Overrides)
    (c : LinearConstraint) :
    (∀ cs, (e.rounding.encodeOver overrides c).value = .ok (.clauses cs) →
      ∃ rs, ((e.raw keep).encodeOver overrides c).value = .ok (.clauses rs) ∧
        e.roundedClauses rs = .ok cs) ∧
    (∀ rs, ((e.raw keep).encodeOver overrides c).value = .ok (.clauses rs) →
      (∀ clause ∈ rs, ∀ l ∈ clause, ∃ l', e.rounded l = .ok l') →
      (∀ l, (e.raw keep).UnusedIn overrides c l → ∃ l', e.rounded l = .ok l') →
      ∃ cs, e.roundedClauses rs = .ok cs ∧
        (e.rounding.encodeOver overrides c).value = .ok (.clauses cs)) ∧
    ((e.rounding.encodeOver overrides c).value = .ok .infeasible ↔
      ((e.raw keep).encodeOver overrides c).value = .ok .infeasible) := by
  refine ⟨fun cs h => ?_, fun rs h hliterals hunused => ?_, ?_⟩
  · obtain ⟨rs, hrs, himage, -⟩ := (encodeOver_rounding_iff keep).mp h
    exact ⟨rs, hrs, himage⟩
  · obtain ⟨cs, hcs⟩ : ∃ cs, e.roundedClauses rs = .ok cs :=
      List.exists_mapM_eq_ok fun clause hclause => List.exists_mapM_eq_ok (hliterals clause hclause)
    exact ⟨cs, hcs, (encodeOver_rounding_iff keep).mpr ⟨rs, h, hcs, hunused⟩⟩
  · rw [encodeOver_eq_infeasible_iff, encodeOver_eq_infeasible_iff]
    rfl

/-! ### Where rounding cannot fail -/

/-- The domain of a variable is closed and consists of small numbers. -/
def Small (e : Encoder) (overrides : Overrides) (x : IntVar) : Prop :=
  ∃ d, e.Regular overrides x d ∧ d.radius < 4611686018427387904 ∧ d.isOpen = false

theorem Small.rounding (h : e.Small overrides x) : e.rounding.Small overrides x := by
  obtain ⟨d, ⟨h1, h2, h3, h4⟩, h5⟩ := h
  exact ⟨d, ⟨h1, h2, h3, h4⟩, h5⟩

/-- Over such a domain all thresholds can be rounded, … -/
theorem Small.exists_rounded (h : e.Small overrides x) :
    ∃ l', e.rounded (.raw x threshold negated none) = .ok l' := by
  obtain ⟨d, hd, hr, ho⟩ := h.rounding
  exact exists_thresholdLiteral hd hr ho

/-- … and the literals that occur nowhere are no obstacle. -/
theorem exists_rounded_of_unused (hbs : ∀ b ∈ bs, e.Small overrides b.term.var)
    (h : (e.raw keep).Unused overrides bs bound l) : ∃ l', e.rounded l = .ok l' := by
  induction bs generalizing bound with
  | nil => exact h.elim
  | cons b bs ih =>
    obtain ⟨hb, hrest⟩ := List.forall_mem_cons.mp hbs
    cases bs with
    | nil => exact h.elim
    | cons next rest =>
      obtain ⟨us, -, u, -, ⟨hl, -⟩ | h⟩ := h
      · obtain ⟨d, hd, hr, ho⟩ := hb.rounding
        obtain ⟨l', hl'⟩ := exists_leadingLiteral (t := b.term) (v := u) hd hr ho rfl
        rw [leadingLiteral_rounding keep, hl, Except.ok_bind] at hl'
        exact ⟨l', hl'⟩
      · exact ih hrest h

/-- The clauses with raw thresholds for the four values of the first variable. -/
def pairClauses : List Clause :=
  [[.raw ⟨0, false⟩ (-1) false none, .raw ⟨1, false⟩ (-2) true none, .bool ⟨⟨0, true⟩, false⟩],
    [.raw ⟨0, false⟩ 0 false none, .raw ⟨1, false⟩ (-1) true none, .bool ⟨⟨0, true⟩, false⟩],
    [.raw ⟨0, false⟩ 1 false none, .raw ⟨1, false⟩ (-1) true none, .bool ⟨⟨0, true⟩, false⟩],
    [.raw ⟨0, false⟩ 2 false none, .raw ⟨1, false⟩ 0 true none, .bool ⟨⟨0, true⟩, false⟩]]

theorem encodeOver_rounding_pair :
    ((pairEncoder.raw false).encodeOver (fun _ => none) pairConstraint).value =
      .ok (.clauses pairClauses) ∧
    ∃ cs, pairEncoder.roundedClauses pairClauses = .ok cs ∧
      (pairEncoder.rounding.encodeOver (fun _ => none) pairConstraint).value =
        .ok (.clauses cs) := by
  have h0 : pairEncoder.Small (fun _ => none) ⟨0, false⟩ :=
    ⟨.interval (.fin (-2)) (.fin 5), ⟨rfl, by decide, by decide, by simp⟩, by decide, by decide⟩
  have h1 : pairEncoder.Small (fun _ => none) ⟨1, false⟩ :=
    ⟨{ shape := .listed [0, 2, 7], multiplier := -1 },
      ⟨rfl, by decide, by decide, by simp⟩, by decide, by decide⟩
  have hraw : ((pairEncoder.raw false).encodeOver (fun _ => none) pairConstraint).value =
      .ok (.clauses pairClauses) := by decide +kernel
  obtain ⟨-, hconverse, -⟩ := encodeOver_rounding pairEncoder false (fun _ => none) pairConstraint
  refine ⟨hraw, hconverse pairClauses hraw ?_ ?_⟩
  · unfold pairClauses
    simp only [List.forall_mem_cons, List.not_mem_nil, false_implies, implies_true, and_true,
      h0.exists_rounded, h1.exists_rounded, true_and]
    simp [rounded]
  · rintro l ⟨bs, hbs, hl⟩
    refine exists_rounded_of_unused (fun b hb => ?_) hl
    cases hbs
    rcases List.mem_cons.mp hb with rfl | hb
    · exact h0
    · obtain rfl := List.mem_singleton.mp hb
      exact h1

/-- Three variables of which the first one has no upper end. The greatest number of the range is not
one of its values, and neither are numbers above it that fit. -/
def sparseEncoder : Encoder where
  table := { ints := [
    ⟨{ shape := .interval (.fin 3074457345618258602) .posInf, multiplier := 3 }, false⟩,
    ⟨.interval (.fin 0) (.fin 1), false⟩, ⟨.interval (.fin 0) (.fin 0), false⟩] }

/-- Their sum is to be the greatest number of the range or more. -/
def sparseConstraint : LinearConstraint where
  terms := [⟨⟨0, false⟩, 1⟩, ⟨⟨1, false⟩, 1⟩, ⟨⟨2, false⟩, 1⟩]
  bound := 9223372036854775807

/-- Visits the second variable only where it makes up for what is missing. -/
def sparseOverrides : Overrides := fun x =>
  if x = ⟨1, false⟩ then some (.interval (.fin 1) (.fin 1)) else none

/-- **A literal that occurs nowhere can fail to be rounded.** With the first value of the first
variable the rest needs no clauses, so with raw thresholds there are none, and nothing is left to be
rounded. With rounded thresholds, the literal for this value is asked for, and there is no number
for it. -/
theorem fails_without_clauses :
    ∃ rs, ((sparseEncoder.raw false).encodeOver sparseOverrides sparseConstraint).value =
        .ok (.clauses rs) ∧
      (∀ clause ∈ rs, ∀ l ∈ clause, ∃ l', sparseEncoder.rounded l = .ok l') ∧
      (sparseEncoder.rounding.encodeOver sparseOverrides sparseConstraint).value =
        .error (.domain .overflow) := by
  refine ⟨[], ?_, by simp, ?_⟩
  · decide +kernel
  · decide +kernel

end ThresholdEncoding.Encoder
