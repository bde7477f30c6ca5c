import ThresholdEncoding.Proofs.Encoder.Walk

/-!
# The encoding of a constraint means the constraint

By induction on the terms, with the bound of what remains kept in range, the clauses for a sum are
satisfied just when the sum reaches the bound. Over closed domains the encoder always answers.

* `satisfies_sumClauses_iff`, `exists_sumClauses`: the clauses for a sum.
* `encodeOver_correct`: the encoding of a constraint.
-/

namespace ThresholdEncoding.Encoder

open Domain

variable {e : Encoder} {overrides : Overrides} {b next : BoundedTerm} {bs rest : List BoundedTerm}
variable {bound v : Int} {ν : Valuation} {cs : List Clause} {t : Term}

/-! ### The steps -/

theorem value_sumClauses_nil : (e.sumClauses overrides [] bound).value =
    .ok (if bound ≤ 0 then [] else [[]]) := by
  rw [sumClauses]; rfl

theorem value_sumClauses_single : (e.sumClauses overrides [b] bound).value =
    e.lastLiteral b.term bound >>= fun l => .ok [[l]] := by
  rw [sumClauses]
  simp only [LoggedExcept.value_bind, LoggedExcept.value_lift, LoggedExcept.value_pure]

/-- The clauses for one value of a leading variable. -/
def valueClauses (e : Encoder) (overrides : Overrides) (t : Term) (rest : List BoundedTerm)
    (bound v contribution : Int) : LoggedExcept EncodeError (List Clause) := do
  let (l, residual) ← LoggedExcept.lift (e.branch t bound v contribution)
  return (← e.sumClauses overrides rest residual).map (l :: ·)

theorem value_sumClauses_cons : (e.sumClauses overrides (b :: next :: rest) bound).value =
    e.visit overrides b.term (Extended.sum ((next :: rest).map (·.lower)))
        (Extended.sum ((next :: rest).map (·.upper))) bound >>= fun w =>
      (walk b.term w.domain (Extended.sum ((next :: rest).map (·.lower))) bound
        (e.valueClauses overrides b.term (next :: rest) bound) w.start).value := by
  rw [sumClauses]
  simp only [LoggedExcept.value_bind, LoggedExcept.value_lift, LoggedExcept.value_note,
    Except.ok_bind]
  rfl

theorem branch_eq_ok_iff {l : Literal} {r contribution : Int} :
    e.branch t bound v contribution = .ok (l, r) ↔
      e.leadingLiteral t v = .ok l ∧ r = bound - contribution ∧ Word.Fits r := by
  unfold branch
  rw [Except.bind_eq_ok_iff]
  constructor
  · rintro ⟨l', h1, h2⟩
    split at h2
    · next r' hr =>
      cases h2
      obtain ⟨rfl, hfits⟩ := Word.check?_eq_some_iff.mp hr
      exact ⟨h1, rfl, hfits⟩
    · cases h2
  · rintro ⟨h1, rfl, hfits⟩
    exact ⟨l, h1, by rw [Word.check?_of_fits hfits]⟩

theorem valueClauses_eq_ok_iff {contribution : Int} :
    (e.valueClauses overrides t rest bound v contribution).value = .ok cs ↔
      ∃ l ds, e.leadingLiteral t v = .ok l ∧ Word.Fits (bound - contribution) ∧
        (e.sumClauses overrides rest (bound - contribution)).value = .ok ds ∧
        cs = ds.map (l :: ·) := by
  unfold valueClauses
  rw [LoggedExcept.value_bind, LoggedExcept.value_lift, Except.bind_eq_ok_iff]
  constructor
  · rintro ⟨⟨l, r⟩, h1, h2⟩
    obtain ⟨h3, rfl, hfits⟩ := branch_eq_ok_iff.mp h1
    rw [LoggedExcept.value_bind] at h2
    obtain ⟨ds, h4, h5⟩ := Except.bind_eq_ok_iff.mp h2
    exact ⟨l, ds, h3, hfits, h4, (Except.ok.inj h5).symm⟩
  · rintro ⟨l, ds, h3, hfits, h4, rfl⟩
    refine ⟨(l, bound - contribution), branch_eq_ok_iff.mpr ⟨h3, rfl, hfits⟩, ?_⟩
    rw [LoggedExcept.value_bind, h4, Except.ok_bind, LoggedExcept.value_pure]

/-! ### Sums -/

/-- Every variable of a list of terms takes a value of the domain over which it is visited. -/
def Assigns (e : Encoder) (overrides : Overrides) (ν : Valuation) (ts : List Term) : Prop :=
  ∀ t ∈ ts, ∀ o, e.visitedDomain overrides t.var = .ok o → o.Admits (ν.int t.var)

theorem Assigns.admits (h : e.Assigns overrides ν (bs.map (·.term)))
    (hbs : ∀ b ∈ bs, ∃ d, e.Weighed overrides b d) : e.Admits ν (bs.map (·.term)) := by
  intro t ht d hd
  obtain ⟨b, hb, rfl⟩ := List.mem_map.mp ht
  obtain ⟨d', hd'⟩ := hbs b hb
  obtain rfl : d = d' := Option.some.inj (hd.symm.trans hd'.regular.domain_eq)
  obtain ⟨o, ho⟩ := hd'.regular.exists_visitable
  have := h _ ht o ho.visited_eq
  exact ⟨ho.subset _ this.1, this.2⟩

/-- What is known about the clauses for a leading term when values are visited. -/
theorem leading_of_rest {d o : Domain} (hd : e.Weighed overrides b d)
    (ho : e.Visitable overrides b.term.var d o) (hbs : ∀ b ∈ bs, ∃ d, e.Weighed overrides b d)
    (hbound : Within bound (e.reach overrides b.term + e.totalReach overrides (bs.map (·.term))))
    (hν : e.Assigns overrides ν (bs.map (·.term))) :
    Leading e overrides b d o (Extended.sum (bs.map (·.lower))) bound (ν.sum (bs.map (·.term)))
      (e.totalReach overrides (bs.map (·.term))) := by
  have hlt := hbound.reach_lt
  refine ⟨hd, ho, hbound, ?_⟩
  rcases lower_sum hbs (by omega) with hl | ⟨n, hl, hn, hall⟩
  · exact Or.inl hl
  · exact Or.inr ⟨n, hl, hn, hall ν (hν.admits hbs)⟩

/-- The clauses for a sum of several terms mean the constraint if those for the rest do. -/
theorem satisfies_sumClauses_cons_iff {d : Domain} (hd : e.Weighed overrides b d)
    (hrest : ∀ b ∈ next :: rest, ∃ d, e.Weighed overrides b d)
    (hbound : Within bound (e.totalReach overrides ((b :: next :: rest).map (·.term))))
    (hν : e.Assigns overrides ν ((b :: next :: rest).map (·.term)))
    (ih : ∀ bound cs, Within bound (e.totalReach overrides ((next :: rest).map (·.term))) →
      (e.sumClauses overrides (next :: rest) bound).value = .ok cs →
      (ν.Satisfies cs ↔ bound ≤ ν.sum ((next :: rest).map (·.term))))
    (h : (e.sumClauses overrides (b :: next :: rest) bound).value = .ok cs) :
    ν.Satisfies cs ↔ bound ≤ ν.sum ((b :: next :: rest).map (·.term)) := by
  obtain ⟨o, ho⟩ := hd.regular.exists_visitable
  have hx := hν b.term (by simp) o ho.visited_eq
  have hxd : d.Admits (ν.int b.term.var) := ⟨ho.subset _ hx.1, hx.2⟩
  have hνrest : e.Assigns overrides ν ((next :: rest).map (·.term)) :=
    fun t ht => hν t (List.mem_cons_of_mem _ ht)
  rw [List.map_cons, totalReach_cons] at hbound
  have hlead := leading_of_rest hd ho hrest hbound hνrest
  rw [value_sumClauses_cons] at h
  obtain ⟨w, hw, hwalk⟩ := Except.bind_eq_ok_iff.mp h
  obtain ⟨hdom, hfin, hclosed, hstart⟩ := visit_eq_ok ho hlead.radius_lt hd.weight_ne_zero hw
  rw [hdom] at hwalk
  obtain ⟨n, v, hseq⟩ := ho.valid.exists_sequence ho.simple hfin
  obtain ⟨m, hm, hvm⟩ := hseq.exists_of_mem hx.1 hx.2
  have hmain := hlead.satisfies_iff (ν := ν) hseq hclosed hm (by rw [hvm]; exact hx.2) ?_ hwalk ?_
  · rw [hmain, hvm]
    simp only [List.map_cons, Valuation.sum_cons]
  · -- the clauses of one value
    intro u l hu hwithin hl
    obtain ⟨lit, ds, h1, -, h2, rfl⟩ := valueClauses_eq_ok_iff.mp hl
    rw [Valuation.satisfies_map_cons, ih _ _ hwithin h2, hvm,
      evaluate_leadingLiteral hd.regular.roundable rfl hxd hu rfl h1]
  · -- the pruned start
    refine hstart.imp_right ?_
    rintro ⟨-, hi, u, hup, hat, hlt'⟩
    have hlt := hbound.reach_lt
    rcases upper_sum hrest (by omega) with hu | ⟨n', hu, -, hall⟩
    · rw [hu] at hup; cases hup
    · rw [hu] at hup
      cases hup
      exact ⟨_, u, hall ν (hνrest.admits hrest), hat, hlt'⟩

/-- **The clauses for a sum say that it reaches the bound.** -/
theorem satisfies_sumClauses_iff (hbs : ∀ b ∈ bs, ∃ d, e.Weighed overrides b d)
    (hbound : Within bound (e.totalReach overrides (bs.map (·.term))))
    (hν : e.Assigns overrides ν (bs.map (·.term)))
    (h : (e.sumClauses overrides bs bound).value = .ok cs) :
    ν.Satisfies cs ↔ bound ≤ ν.sum (bs.map (·.term)) := by
  induction bs generalizing bound cs with
  | nil =>
    rw [value_sumClauses_nil] at h
    cases h
    split_ifs with h0 <;> simp [h0]
  | cons b bs ih =>
    obtain ⟨⟨d, hd⟩, hrest⟩ := List.forall_mem_cons.mp hbs
    cases bs with
    | nil =>
      obtain ⟨o, ho⟩ := hd.regular.exists_visitable
      have hx := hν b.term (by simp) o ho.visited_eq
      rw [value_sumClauses_single] at h
      obtain ⟨l, hl, h⟩ := Except.bind_eq_ok_iff.mp h
      cases h
      rw [Valuation.satisfies_unit, evaluate_lastLiteral hd.regular.roundable rfl
        ⟨ho.subset _ hx.1, hx.2⟩ hbound.fits rfl hd.weight_ne_zero hl]
      simp
    | cons next rest =>
      have hνrest : e.Assigns overrides ν ((next :: rest).map (·.term)) :=
        fun t ht => hν t (List.mem_cons_of_mem _ ht)
      exact satisfies_sumClauses_cons_iff hd hrest hbound hν
        (fun _ _ hwithin h' => ih hrest hwithin hνrest h') h

theorem exists_valueClauses {d : Domain} (hd : e.Regular overrides t.var d)
    (hr : d.radius < 4611686018427387904) (hclosed : d.isOpen = false) {contribution : Int}
    (hfits : Word.Fits (bound - contribution))
    (h : ∃ ds, (e.sumClauses overrides rest (bound - contribution)).value = .ok ds) :
    ∃ cs, (e.valueClauses overrides t rest bound v contribution).value = .ok cs := by
  obtain ⟨l, hl⟩ := exists_leadingLiteral (v := v) hd hr hclosed rfl
  obtain ⟨ds, hds⟩ := h
  exact ⟨ds.map (l :: ·), valueClauses_eq_ok_iff.mpr ⟨l, ds, hl, hfits, hds, rfl⟩⟩

/-- **Over closed domains the clauses for a sum exist.** -/
theorem exists_sumClauses (hbs : ∀ b ∈ bs, ∃ d, e.Weighed overrides b d ∧ d.isOpen = false)
    (hbound : bound.natAbs + e.totalReach overrides (bs.map (·.term)) < 4611686018427387904) :
    ∃ cs, (e.sumClauses overrides bs bound).value = .ok cs := by
  induction bs generalizing bound with
  | nil => rw [value_sumClauses_nil]; exact ⟨_, rfl⟩
  | cons b bs ih =>
    obtain ⟨d, hd, hclosed⟩ := hbs b (by simp)
    cases bs with
    | nil =>
      obtain ⟨l, hl⟩ : ∃ l, e.lastLiteral b.term bound = .ok l :=
        exists_lastLiteral hd.regular hd.domain_radius_lt hclosed rfl
      rw [value_sumClauses_single, hl]
      exact ⟨_, rfl⟩
    | cons next rest =>
      obtain ⟨o, ho⟩ := hd.regular.exists_visitable
      have hoclosed := ho.closed hclosed
      have hr : o.radius < 4611686018427387904 := lt_of_le_of_lt ho.radius_le hd.radius_lt
      obtain ⟨w, hw⟩ := exists_visit ho hr hd.weight_ne_zero
        (Extended.sum ((next :: rest).map (·.lower))) (Extended.sum ((next :: rest).map (·.upper)))
        bound hoclosed
      obtain ⟨hdom, hfin, -, -⟩ := visit_eq_ok ho hr hd.weight_ne_zero hw
      obtain ⟨n, v, hseq⟩ := ho.valid.exists_sequence ho.simple hfin
      rw [List.map_cons, totalReach_cons] at hbound
      rw [value_sumClauses_cons, hw, Except.ok_bind, hdom]
      refine exists_walk fun j u hu => ?_
      obtain ⟨hj, rfl, hfits⟩ := hseq.of_at hu
      have hsmall := ho.natAbs_mul_le hoclosed ⟨hseq.mem hj, hfits⟩
      refine ⟨Word.fits_of_natAbs_lt (by omega), exists_valueClauses hd.regular hd.domain_radius_lt
        hclosed (Word.fits_of_natAbs_lt (by omega)) (ih ?_ (by omega))⟩
      exact fun b hb => hbs b (List.mem_cons_of_mem _ hb)

/-! ### Constraints -/

/-- What is known about the terms of a constraint with their bounds. -/
theorem exists_bounded {ts : List Term} (hts : ∀ t ∈ ts, ∃ d, e.Regular overrides t.var d)
    (hw : ∀ t ∈ ts, t.weight ≠ 0) (hM : e.totalReach overrides ts < 4611686018427387904) :
    ∃ bs, ts.mapM e.bounded = .ok bs ∧ bs.map (·.term) = ts ∧
      ∀ b ∈ bs, ∃ d, e.Weighed overrides b d := by
  induction ts with
  | nil => exact ⟨[], rfl, rfl, by simp⟩
  | cons t ts ih =>
    rw [totalReach_cons] at hM
    obtain ⟨d, hd⟩ := hts t (by simp)
    have hwt := hw t (by simp)
    obtain ⟨bs, h1, h2, h3⟩ := ih (fun t ht => hts t (List.mem_cons_of_mem _ ht))
      (fun t ht => hw t (List.mem_cons_of_mem _ ht)) (by omega)
    have hb := bounded_eq hd.domain_eq hwt
    refine ⟨⟨t, (d.startBound t.direction).scale t.weight,
      (d.startBound t.direction.reverse).scale t.weight⟩ :: bs, ?_, by rw [List.map_cons, h2], ?_⟩
    · rw [List.mapM_cons, hb, h1]; rfl
    · intro b hb
      rcases List.mem_cons.mp hb with rfl | hb
      · exact ⟨d, hd, hwt, lt_of_le_of_lt (Nat.le_add_right _ _) hM, rfl, rfl⟩
      · exact h3 b hb

theorem value_encodeOver {c : LinearConstraint} (h : c.terms.mapM e.bounded = .ok bs) :
    (e.encodeOver overrides c).value =
      if e.reportsInfeasible c (Extended.sum (bs.map (·.upper))) = true then .ok .infeasible
      else (e.sumClauses overrides bs c.bound).value >>= fun cs =>
        match c.reification with
        | some r => .ok (.clauses (cs.map (· ++ [.bool r.lit])))
        | none => .ok (.clauses cs) := by
  unfold encodeOver
  simp only [LoggedExcept.value_bind, LoggedExcept.value_lift, h, Except.ok_bind]
  split_ifs
  · rfl
  · simp only [LoggedExcept.value_bind]
    cases (e.sumClauses overrides bs c.bound).value with
    | error err => rfl
    | ok cs => cases c.reification <;> rfl

/-- The literal of the reification of a constraint, if it has one. -/
def attached (c : LinearConstraint) : Clause :=
  (c.reification.map fun r => Literal.bool r.lit).toList

/-- **How the encoding of a constraint comes about.** Every variable has bounds, and the constraint is
reported, or the clauses for the sum get the attached literal. -/
theorem encodeOver_eq_ok_iff {c : LinearConstraint} {enc : Encoding} :
    (e.encodeOver overrides c).value = .ok enc ↔ ∃ bs, c.terms.mapM e.bounded = .ok bs ∧
      ((e.reportsInfeasible c (Extended.sum (bs.map (·.upper))) = true ∧ enc = .infeasible) ∨
        (e.reportsInfeasible c (Extended.sum (bs.map (·.upper))) = false ∧
          ∃ ds, (e.sumClauses overrides bs c.bound).value = .ok ds ∧
            enc = .clauses (ds.map (· ++ attached c)))) := by
  cases hbs : c.terms.mapM e.bounded with
  | error err =>
    unfold encodeOver
    simp [hbs]
  | ok bs =>
    have hattach : ∀ ds : List Clause, (match c.reification with
        | some r => Except.ok (Encoding.clauses (ds.map (· ++ [.bool r.lit])))
        | none => .ok (.clauses ds)) =
          (.ok (.clauses (ds.map (· ++ attached c))) : Except EncodeError Encoding) := by
      intro ds
      unfold attached
      cases c.reification with
      | none => simp
      | some r => rfl
    rw [value_encodeOver hbs]
    simp only [hattach, Except.ok.injEq, exists_eq_left']
    split_ifs with hinf
    · simp [hinf, eq_comm]
    · simp only [hinf, Except.bind_eq_ok_iff, Except.ok.injEq]
      simp [eq_comm]

theorem encodeOver_eq_infeasible_iff {c : LinearConstraint} :
    (e.encodeOver overrides c).value = .ok .infeasible ↔ ∃ bs, c.terms.mapM e.bounded = .ok bs ∧
      e.reportsInfeasible c (Extended.sum (bs.map (·.upper))) = true := by
  rw [encodeOver_eq_ok_iff]
  simp

theorem encodeOver_eq_clauses_iff {c : LinearConstraint} :
    (e.encodeOver overrides c).value = .ok (.clauses cs) ↔ ∃ bs ds,
      c.terms.mapM e.bounded = .ok bs ∧
      e.reportsInfeasible c (Extended.sum (bs.map (·.upper))) = false ∧
      (e.sumClauses overrides bs c.bound).value = .ok ds ∧ cs = ds.map (· ++ attached c) := by
  rw [encodeOver_eq_ok_iff]
  simp

/-- A constraint that is reported as infeasible does not hold. -/
theorem not_holds_of_reportsInfeasible {c : LinearConstraint}
    (hbs : ∀ b ∈ bs, ∃ d, e.Weighed overrides b d) (hterms : bs.map (·.term) = c.terms)
    (hM : e.totalReach overrides c.terms < 9223372036854775808)
    (hν : e.Assigns overrides ν c.terms)
    (h : e.reportsInfeasible c (Extended.sum (bs.map (·.upper))) = true) : ¬ c.Holds ν := by
  unfold reportsInfeasible at h
  simp only [Bool.and_eq_true, decide_eq_true_eq, Option.isNone_iff_eq_none] at h
  obtain ⟨⟨-, hnone⟩, hlt⟩ := h
  rw [← hterms] at hM hν
  rintro (hle | ⟨r, hr, -⟩)
  · rcases upper_sum hbs hM with hu | ⟨n, hu, -, hall⟩
    · rw [hu] at hlt
      exact Extended.not_posInf_lt hlt
    · rw [hu, Extended.fin_lt_fin] at hlt
      have := hall ν (hν.admits hbs)
      rw [hterms] at this
      omega
  · rw [hnone] at hr; cases hr

section Constraint
variable {c : LinearConstraint} (hvars : ∀ t ∈ c.terms, ∃ d, e.Regular overrides t.var d)
variable (hweights : ∀ t ∈ c.terms, t.weight ≠ 0)
variable (hsize : e.totalReach overrides c.terms + c.bound.natAbs < 4611686018427387904)
include hvars hweights hsize

theorem satisfied_iff_holds {enc : Encoding} (henc : (e.encodeOver overrides c).value = .ok enc)
    (hν : e.Assigns overrides ν c.terms) : enc.Satisfied ν ↔ c.Holds ν := by
  obtain ⟨bs, h1, h2, h3⟩ := exists_bounded hvars hweights (by omega)
  rw [value_encodeOver h1] at henc
  split_ifs at henc with hinf
  · cases henc
    have := not_holds_of_reportsInfeasible h3 h2 (by omega) hν hinf
    simp [Encoding.Satisfied, this]
  · obtain ⟨cs, hcs, henc⟩ := Except.bind_eq_ok_iff.mp henc
    have hsum : ν.Satisfies cs ↔ c.bound ≤ ν.sum c.terms := by
      have hwithin : Within c.bound (e.totalReach overrides c.terms) :=
        ⟨by omega, by omega, by omega⟩
      rw [← h2] at hwithin hν ⊢
      exact satisfies_sumClauses_iff h3 hwithin hν hcs
    unfold LinearConstraint.Holds
    cases hr : c.reification with
    | none =>
      rw [hr] at henc
      cases henc
      simp [Encoding.Satisfied, hsum]
    | some r =>
      rw [hr] at henc
      cases henc
      simp only [Encoding.Satisfied, Valuation.satisfies_map_concat, Valuation.evaluate_bool,
        hsum, Option.some.injEq, exists_eq_left']
      exact or_comm

theorem exists_encoding
    (hclosed : ∀ t ∈ c.terms, ∀ d, e.table.domain? t.var = some d → d.isOpen = false) :
    ∃ enc, (e.encodeOver overrides c).value = .ok enc := by
  obtain ⟨bs, h1, h2, h3⟩ := exists_bounded hvars hweights (by omega)
  rw [value_encodeOver h1]
  split_ifs
  · exact ⟨_, rfl⟩
  · have hbs : ∀ b ∈ bs, ∃ d, e.Weighed overrides b d ∧ d.isOpen = false := by
      intro b hb
      obtain ⟨d, hd⟩ := h3 b hb
      have ht : b.term ∈ c.terms := by rw [← h2]; exact List.mem_map_of_mem hb
      exact ⟨d, hd, hclosed b.term ht d hd.regular.domain_eq⟩
    obtain ⟨cs, hcs⟩ := exists_sumClauses hbs (show c.bound.natAbs + _ < _ by rw [h2]; omega)
    rw [hcs, Except.ok_bind]
    cases c.reification <;> exact ⟨_, rfl⟩

end Constraint

/-- **The encoding of a constraint means the constraint**, whatever the options are and over
whatever domains the values of some variables are visited: an assignment satisfies the encoding just
when the exact sum reaches the bound or the attached literal is true. Over closed domains there is
always an encoding. -/
theorem encodeOver_correct (e : Encoder) (overrides : Overrides) (c : LinearConstraint)
    (hvars : ∀ t ∈ c.terms, ∃ d, e.Regular overrides t.var d)
    (hweights : ∀ t ∈ c.terms, t.weight ≠ 0)
    (hsize : e.totalReach overrides c.terms + c.bound.natAbs < 4611686018427387904) :
    (∀ enc, (e.encodeOver overrides c).value = .ok enc →
      ∀ ν, e.Assigns overrides ν c.terms → (enc.Satisfied ν ↔ c.Holds ν)) ∧
    ((∀ t ∈ c.terms, ∀ d, e.table.domain? t.var = some d → d.isOpen = false) →
      ∃ enc, (e.encodeOver overrides c).value = .ok enc) :=
  ⟨fun _ henc _ hν => satisfied_iff_holds hvars hweights hsize henc hν,
    fun hclosed => exists_encoding hvars hweights hsize hclosed⟩

/-- Two variables, of which the second one is visited over a part of its domain. -/
def pairEncoder : Encoder where
  table := { ints := [⟨.interval (.fin (-2)) (.fin 5), false⟩,
    ⟨{ shape := .listed [0, 2, 7], multiplier := -1 }, false⟩] }

/-- The constraint `2 * x₁ - 3 * x₂ ≥ 4`, excused by the first boolean variable. -/
def pairConstraint : LinearConstraint where
  terms := [⟨⟨0, false⟩, 2⟩, ⟨⟨1, false⟩, -3⟩]
  bound := 4
  reification := some ⟨⟨0, true⟩, true⟩

/-- Visits the second variable over two of its values. -/
def pairOverrides : Overrides := fun x =>
  if x = ⟨1, false⟩ then some { shape := .listed [-7, 0] } else none

theorem encodeOver_correct_pair :
    ∃ enc, (pairEncoder.encodeOver pairOverrides pairConstraint).value = .ok enc ∧
      ∀ ν, pairEncoder.Assigns pairOverrides ν pairConstraint.terms →
        (enc.Satisfied ν ↔ pairConstraint.Holds ν) := by
  have hvars : ∀ t ∈ pairConstraint.terms, ∃ d, pairEncoder.Regular pairOverrides t.var d := by
    intro t ht
    rcases List.mem_cons.mp ht with rfl | ht
    · refine ⟨.interval (.fin (-2)) (.fin 5), rfl, by decide, by decide, ?_⟩
      rintro o ho
      cases ho
    · obtain rfl := List.mem_singleton.mp ht
      refine ⟨{ shape := .listed [0, 2, 7], multiplier := -1 }, rfl, by decide, by decide, ?_⟩
      rintro o ho
      cases ho
      refine ⟨by decide, by decide, ?_⟩
      rintro v ⟨r, hr, rfl⟩
      rcases List.mem_cons.mp hr with rfl | hr
      · exact ⟨7, Shape.mem_listed_iff.mpr (by decide), by decide⟩
      · obtain rfl := List.mem_singleton.mp hr
        exact ⟨0, Shape.mem_listed_iff.mpr (by decide), by decide⟩
  obtain ⟨hiff, hex⟩ := encodeOver_correct pairEncoder pairOverrides pairConstraint hvars
    (by decide) (by decide)
  have hclosed : ∀ t ∈ pairConstraint.terms, ∀ d, pairEncoder.table.domain? t.var = some d →
      d.isOpen = false := by
    intro t ht d hd
    rcases List.mem_cons.mp ht with rfl | ht
    · cases hd; decide
    · obtain rfl := List.mem_singleton.mp ht
      cases hd; decide
  obtain ⟨enc, henc⟩ := hex hclosed
  exact ⟨enc, henc, hiff enc henc⟩

end ThresholdEncoding.Encoder
