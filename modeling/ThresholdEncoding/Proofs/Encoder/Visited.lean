import ThresholdEncoding.Proofs.Encoder.Equivalence

/-!
# The values that a walk visits

Which values of a leading variable a walk visits depends on the term, the domain and the bounds, and
not on the clauses for the values. So a walk succeeds if it gets to its end, by itself, and the
clauses for all values on the way exist.

* `Walks`: a walk visits a list of values and gets to its end.
* `walk_eq_ok_iff`: the clauses of all visited values.
* `Visits`, `sumClauses_eq_ok_iff`: the visited values of a leading term, and the clauses for a sum.
* `Walks.drop`: a walk from a later position.
-/

namespace ThresholdEncoding.Encoder

/-- The walk from a position on visits a list of values and gets to its end: no value is left, or
the next one settles the constraint. -/
inductive Walks (t : Term) (d : Domain) (restLower : Extended) (bound : Int) :
    Nat → List Int → Prop
  | ended {k : Nat} (hat : d.at? t.direction k = none) : Walks t d restLower bound k []
  | settled {k : Nat} {v : Int} (hat : d.at? t.direction k = some v)
    (hfits : Word.Fits (t.weight * v)) (hs : settles restLower bound (t.weight * v) = true) :
    Walks t d restLower bound k []
  | visited {k : Nat} {u : Int} {us : List Int} (hat : d.at? t.direction k = some u)
    (hfits : Word.Fits (t.weight * u)) (hs : settles restLower bound (t.weight * u) = false)
    (h : Walks t d restLower bound (k + 1) us) : Walks t d restLower bound k (u :: us)

variable {e : Encoder} {overrides : Overrides} {t : Term} {d : Domain} {restLower : Extended}
variable {bound : Int} {body : Int → Int → LoggedExcept EncodeError (List Clause)}
variable {b next : BoundedTerm} {rest : List BoundedTerm} {cs : List Clause} {us vs : List Int}
variable {k : Nat}

/-! ### What a walk collects -/

/-- A walk that gets to its end asks for the clauses of all values on the way. -/
theorem Walks.value_walk (h : Walks t d restLower bound k us) :
    (walk t d restLower bound body k).value =
      (us.mapM fun u => (body u (t.weight * u)).value) >>= fun css => .ok css.flatten := by
  induction h with
  | ended hat => rw [walk_of_end hat]; rfl
  | settled hat hfits hs => rw [walk_of_settles hat hfits hs]; rfl
  | @visited k u us hat hfits hs _ ih =>
    rw [walk_of_not_settles hat hfits hs, List.mapM_cons]
    simp only [LoggedExcept.value_bind, LoggedExcept.value_pure, ih, bind_assoc, pure_bind,
      Except.ok_bind, List.flatten_cons]

/-- A walk that succeeds gets to its end. -/
theorem exists_walks (h : (walk t d restLower bound body k).value = .ok cs) :
    ∃ us, Walks t d restLower bound k us := by
  induction hn : d.shape.reach - k using Nat.strong_induction_on generalizing k cs with
  | _ n ih =>
  cases hat : d.at? t.direction k with
  | none => exact ⟨[], .ended hat⟩
  | some u =>
    have hlt := Domain.lt_reach_of_at? hat
    have hfits : Word.Fits (t.weight * u) := by
      by_contra hfits
      rw [walk_of_not_fits hat hfits] at h
      cases h
    cases hs : settles restLower bound (t.weight * u) with
    | true => exact ⟨[], .settled hat hfits hs⟩
    | false =>
      rw [walk_of_not_settles hat hfits hs, LoggedExcept.value_bind] at h
      obtain ⟨here, -, h⟩ := Except.bind_eq_ok_iff.mp h
      rw [LoggedExcept.value_bind] at h
      obtain ⟨further, h, -⟩ := Except.bind_eq_ok_iff.mp h
      obtain ⟨us, hus⟩ := ih (d.shape.reach - (k + 1)) (by omega) h rfl
      exact ⟨u :: us, .visited hat hfits hs hus⟩

/-- **A walk succeeds if it gets to its end and the clauses of all visited values exist**, and gives
these clauses in a row. -/
theorem walk_eq_ok_iff : (walk t d restLower bound body k).value = .ok cs ↔ ∃ us css,
    Walks t d restLower bound k us ∧
      (us.mapM fun u => (body u (t.weight * u)).value) = .ok css ∧ cs = css.flatten := by
  constructor
  · intro h
    obtain ⟨us, hus⟩ := exists_walks h
    rw [hus.value_walk] at h
    obtain ⟨css, hcss, h⟩ := Except.bind_eq_ok_iff.mp h
    exact ⟨us, css, hus, hcss, (Except.ok.inj h).symm⟩
  · rintro ⟨us, css, hus, hcss, rfl⟩
    rw [hus.value_walk, hcss, Except.ok_bind]

/-- The values of the variable of a leading term that are visited. -/
def Visits (e : Encoder) (overrides : Overrides) (b : BoundedTerm) (rest : List BoundedTerm)
    (bound : Int) (us : List Int) : Prop :=
  ∃ w, e.visit overrides b.term (Extended.sum (rest.map (·.lower)))
      (Extended.sum (rest.map (·.upper))) bound = .ok w ∧
    Walks b.term w.domain (Extended.sum (rest.map (·.lower))) bound w.start us

/-- The clauses for a sum of several terms are those of all visited values of the leading one. -/
theorem sumClauses_eq_ok_iff :
    (e.sumClauses overrides (b :: next :: rest) bound).value = .ok cs ↔ ∃ us css,
      e.Visits overrides b (next :: rest) bound us ∧
      (us.mapM fun u => (e.valueClauses overrides b.term (next :: rest) bound u
        (b.term.weight * u)).value) = .ok css ∧ cs = css.flatten := by
  rw [value_sumClauses_cons, Except.bind_eq_ok_iff]
  simp only [walk_eq_ok_iff]
  constructor
  · rintro ⟨w, hw, us, css, hus, hcss, hcs⟩
    exact ⟨us, css, ⟨w, hw, hus⟩, hcss, hcs⟩
  · rintro ⟨us, css, ⟨w, hw, hus⟩, hcss, hcs⟩
    exact ⟨w, hw, us, css, hus, hcss, hcs⟩

/-! ### Which values are visited -/

/-- Where no value is left or the next one settles the constraint, nothing is visited. -/
theorem Walks.eq_nil (h : Walks t d restLower bound k us)
    (hend : ∀ u, d.at? t.direction k = some u → settles restLower bound (t.weight * u) = true) :
    us = [] := by
  cases h with
  | ended => rfl
  | settled => rfl
  | visited hat _ hs _ =>
    rw [hend _ hat] at hs
    cases hs

/-- A value that does not settle the constraint is visited. -/
theorem Walks.exists_cons {u : Int} (h : Walks t d restLower bound k us)
    (hat : d.at? t.direction k = some u) (hs : settles restLower bound (t.weight * u) = false) :
    ∃ vs, us = u :: vs ∧ Walks t d restLower bound (k + 1) vs := by
  cases h with
  | ended hat' => rw [hat] at hat'; cases hat'
  | settled hat' _ hs' =>
    cases hat.symm.trans hat'
    rw [hs] at hs'
    cases hs'
  | visited hat' _ _ h =>
    cases hat.symm.trans hat'
    exact ⟨_, rfl, h⟩

/-- The visited values are determined. -/
theorem Walks.unique (h : Walks t d restLower bound k us) (h' : Walks t d restLower bound k vs) :
    us = vs := by
  induction h generalizing vs with
  | ended hat =>
    refine (h'.eq_nil fun u hu => ?_).symm
    rw [hat] at hu
    cases hu
  | settled hat _ hs =>
    refine (h'.eq_nil fun u hu => ?_).symm
    cases hat.symm.trans hu
    exact hs
  | visited hat _ hs _ ih =>
    obtain ⟨further, hvs, hfurther⟩ := h'.exists_cons hat hs
    rw [hvs, ih hfurther]

theorem Visits.unique (h : e.Visits overrides b rest bound us)
    (h' : e.Visits overrides b rest bound vs) : us = vs := by
  obtain ⟨w, hw, hus⟩ := h
  obtain ⟨w', hw', hvs⟩ := h'
  rw [hw] at hw'
  cases hw'
  exact hus.unique hvs

/-- From a later position on, the same walk visits what is left. -/
theorem Walks.drop (h : Walks t d restLower bound k us) {j : Nat} (hj : j ≤ us.length) :
    Walks t d restLower bound (k + j) (us.drop j) := by
  induction j generalizing k us with
  | zero => exact h
  | succ j ih =>
    cases h with
    | ended => simp at hj
    | settled => simp at hj
    | @visited _ u us _ _ _ h =>
      rw [List.drop_succ_cons, show k + (j + 1) = k + 1 + j by omega]
      exact ih h (by simpa using hj)

end ThresholdEncoding.Encoder
