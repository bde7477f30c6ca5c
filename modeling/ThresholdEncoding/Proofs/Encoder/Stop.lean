import ThresholdEncoding.Proofs.Encoder.Extremes

/-!
# When the walk over a leading variable stops early

The walk stops before a value with which the constraint is to hold whatever the rest is, and omits
the clauses of this value and of all later ones. The test adds the contribution of the value to a
saturating sum of the lower bounds of the rest. The stop is sound unless this sum leaves the 64 bit
range above before anywhere else: then every value passes the test, and the walk stops at once.

* `StopsAt`: the walk stops at a value.
* `StopsAt.walk_eq`: what it has done by then.
* `stopsAt_iff_mem_log`: it reports the value.
* `stopsAt_sound`: the exact condition for a sound stop.
* `stop_unsound`: a stop that drops needed clauses.
-/

namespace ThresholdEncoding.Encoder

open Extended VariableTable

/-- The walk from a position on stops at a value, as this value settles the constraint and no value
before it does. -/
inductive StopsAt (t : Term) (d : Domain) (restLower : Extended) (bound : Int) : Nat → Int → Prop
  | here {k : Nat} {v : Int} (hat : d.at? t.direction k = some v)
    (hfits : Word.Fits (t.weight * v)) (hs : settles restLower bound (t.weight * v) = true) :
    StopsAt t d restLower bound k v
  | later {k : Nat} {u v : Int} (hat : d.at? t.direction k = some u)
    (hfits : Word.Fits (t.weight * u)) (hs : settles restLower bound (t.weight * u) = false)
    (h : StopsAt t d restLower bound (k + 1) v) : StopsAt t d restLower bound k v

variable {t : Term} {d : Domain} {restLower : Extended} {bound v : Int} {k : Nat}
variable {body : Int → Int → LoggedExcept EncodeError (List Clause)}

/-! ### The steps of a walk -/

/-- **A walk that stops** visits the values before the one at which it stops, reports this one, and
adds nothing to the clauses of the others. -/
theorem StopsAt.walk_eq (h : StopsAt t d restLower bound k v)
    (body : Int → Int → LoggedExcept EncodeError (List Clause)) :
    ∃ us : List Int, (∀ i < us.length, d.at? t.direction (k + i) = us[i]?) ∧
      d.at? t.direction (k + us.length) = some v ∧
      walk t d restLower bound body k = do
        let clauses ← us.mapM fun u => body u (t.weight * u)
        LoggedExcept.note (.settled t.var v)
        return clauses.flatten := by
  induction h with
  | here hat hfits hs =>
    refine ⟨[], by simp, hat, ?_⟩
    rw [walk_of_settles hat hfits hs]
    simp
  | @later k u v hat hfits hs h ih =>
    obtain ⟨us, h1, h2, h3⟩ := ih
    refine ⟨u :: us, fun i hi => ?_, ?_, ?_⟩
    · cases i with
      | zero => exact hat
      | succ i =>
        have := h1 i (by simpa using hi)
        rw [show k + (i + 1) = k + 1 + i by omega, this]; rfl
    · rw [List.length_cons, show k + (us.length + 1) = k + 1 + us.length by omega, h2]
    · rw [walk_of_not_settles hat hfits hs, h3]
      simp

/-- **The walk stops at the value that it reports.** Steps that report nothing themselves show
this. -/
theorem stopsAt_iff_mem_log : StopsAt t d restLower bound k v ↔
    LogEvent.settled t.var v ∈ (walk t d restLower bound (fun _ _ => pure []) k).log := by
  constructor
  · intro h
    obtain ⟨us, -, -, h⟩ := h.walk_eq fun _ _ => pure []
    rw [h, List.mapM_pure, pure_bind]
    exact List.mem_singleton.mpr rfl
  · induction hn : d.shape.reach - k using Nat.strong_induction_on generalizing k with
    | _ n ih =>
    intro h
    cases hat : d.at? t.direction k with
    | none => rw [walk_of_end hat] at h; cases h
    | some u =>
      have hlt := Domain.lt_reach_of_at? hat
      by_cases hfits : Word.Fits (t.weight * u)
      · cases hs : settles restLower bound (t.weight * u) with
        | true =>
          rw [walk_of_settles hat hfits hs] at h
          cases List.mem_singleton.mp h
          exact .here hat hfits hs
        | false =>
          rw [walk_of_not_settles hat hfits hs] at h
          refine .later hat hfits hs (ih _ (by omega) rfl ?_)
          simpa using h
      · rw [walk_of_not_fits hat hfits] at h; cases h

/-! ### What a stop says -/

theorem StopsAt.settles (h : StopsAt t d restLower bound k v) :
    settles restLower bound (t.weight * v) = true := by
  induction h with
  | here _ _ hs => exact hs
  | later _ _ _ _ ih => exact ih

/-- Above the range every value passes the test, so the first one does. -/
theorem stopsAt_posInf_iff : StopsAt t d .posInf bound k v ↔
    d.at? t.direction k = some v ∧ Word.Fits (t.weight * v) := by
  constructor
  · intro h
    cases h with
    | here hat hfits _ => exact ⟨hat, hfits⟩
    | later _ _ hs _ => cases hs
  · rintro ⟨hat, hfits⟩
    exact .here hat hfits rfl

/-- **The exact condition for a sound stop.** The exact infima of the remaining terms are added from
the left. Unless the 64 bit range is first left above, the walk stops at a value only if every sum of
domain values of the remaining terms reaches what the value leaves of the bound. If it is first left
above, the walk stops at its first value, whatever the sums are. -/
theorem stopsAt_sound (e : Encoder) (rest : List Term) (bound : Int) (hT : e.table.Valid)
    (hrest : e.table.DeclaresTerms rest) (hbound : Word.Fits bound) {bs : List BoundedTerm}
    (hbs : rest.mapM e.bounded = .ok bs) :
    (∀ t ∈ rest, Direction.ascending.Starts (e.table.values t) (e.table.extreme .ascending t)) ∧
    (departure? 0 (e.table.extremes .ascending rest) ≠ some .ascending → ∀ t d k v,
      StopsAt t d (Extended.sum (bs.map (·.lower))) bound k v →
        ∀ n ∈ e.table.sums rest, bound - t.weight * v ≤ n) ∧
    (departure? 0 (e.table.extremes .ascending rest) = some .ascending → ∀ t d k v,
      (StopsAt t d (Extended.sum (bs.map (·.lower))) bound k v ↔
        d.at? t.direction k = some v ∧ Word.Fits (t.weight * v))) := by
  rw [mapM_bounded_eq hrest] at hbs
  cases hbs
  rw [sum_lower_clipped]
  refine ⟨fun t ht => starts_extreme hT (hrest t ht).1 (hrest t ht).2 _, ?_, ?_⟩
  · intro hdep t d k v hstop n hn
    have hs := hstop.settles
    cases hleft : departure? 0 (e.table.extremes .ascending rest) with
    | some dir =>
      -- below the range nothing settles the constraint
      cases dir with
      | ascending => exact absurd hleft hdep
      | descending => rw [hleft] at hs; cases hs
    | none =>
      obtain ⟨-, hmin⟩ := starts_sums .ascending hT hrest (forall_isFinite_of_departure? hleft)
      rw [hleft, Option.map_none, Option.getD_none, settles_iff hbound (by simp)] at hs
      obtain ⟨m, hm, hle⟩ := hs
      cases hm
      have := not_lt.mp (hmin n hn)
      omega
  · intro hdep t d k v
    rw [hdep]
    exact stopsAt_posInf_iff

/-- A variable that has to take its greater value, as the rest falls short of the bound by one. -/
def stopSum : LinearConstraint where
  terms := [⟨⟨0, false⟩, 1⟩, ⟨⟨1, false⟩, 1⟩, ⟨⟨2, false⟩, 1⟩, ⟨⟨3, false⟩, 1⟩]
  bound := 4611686018427387904

/-- With the small value of the rest in front the walk stops where it should, and with the large
ones in front at once. -/
theorem stopsAt_sound_spread :
    let t : Term := ⟨⟨0, false⟩, 1⟩
    let d : Domain := .interval (.fin 0) (.fin 1)
    (StopsAt t d (.fin 4611686018427387903) stopSum.bound 0 1 ∧
      ∀ n ∈ spreadEncoder.table.sums [⟨⟨3, false⟩, 1⟩, ⟨⟨1, false⟩, 1⟩, ⟨⟨2, false⟩, 1⟩],
        stopSum.bound - 1 * 1 ≤ n) ∧
    StopsAt t d .posInf stopSum.bound 0 0 := by
  intro t d
  obtain ⟨-, hsound, -⟩ := stopsAt_sound spreadEncoder
    [⟨⟨3, false⟩, 1⟩, ⟨⟨1, false⟩, 1⟩, ⟨⟨2, false⟩, 1⟩] stopSum.bound valid_spreadEncoder (by decide)
    (by decide) rfl
  obtain ⟨-, -, hatOnce⟩ := stopsAt_sound spreadEncoder stopSum.terms.tail stopSum.bound
    valid_spreadEncoder (by decide) (by decide) rfl
  have hstop : StopsAt t d (.fin 4611686018427387903) stopSum.bound 0 1 :=
    .later (u := 0) rfl (by decide) (by decide) (.here rfl (by decide) (by decide))
  exact ⟨⟨hstop, hsound (by decide) t d 0 1 hstop⟩, (hatOnce (by decide) t d 0 0).mpr (by decide)⟩

/-- **A stop can be unsound**: the walk stops at a value with which the rest cannot reach the bound,
and no clause is left. -/
theorem stop_unsound :
    ∃ bs w, stopSum.terms.tail.mapM spreadEncoder.bounded = .ok bs ∧
      spreadEncoder.visit (fun _ => none) ⟨⟨0, false⟩, 1⟩ (Extended.sum (bs.map (·.lower)))
        (Extended.sum (bs.map (·.upper))) stopSum.bound = .ok w ∧
      StopsAt ⟨⟨0, false⟩, 1⟩ w.domain (Extended.sum (bs.map (·.lower))) stopSum.bound w.start 0 ∧
      (∃ n ∈ spreadEncoder.table.sums stopSum.terms.tail, n < stopSum.bound - 1 * 0) ∧
      (spreadEncoder.encode stopSum).value = .ok (.clauses []) := by
  refine ⟨_, ⟨.interval (.fin 0) (.fin 1), 0, true⟩, rfl, rfl,
    .here rfl (by decide) (by decide), ?_, ?_⟩
  · obtain ⟨hmem, -⟩ := starts_sums .ascending valid_spreadEncoder
      (show spreadEncoder.table.DeclaresTerms stopSum.terms.tail by decide) (by decide)
    exact ⟨_, hmem, by decide⟩
  · have hwalk : (spreadEncoder.sumClauses (fun _ => none)
        (stopSum.terms.map (clipped spreadEncoder.table)) stopSum.bound).value = .ok [] := by
      show (spreadEncoder.sumClauses _ (_ :: _ :: _) _).value = _
      rw [value_sumClauses_cons]
      show (walk _ (.interval (.fin 0) (.fin 1)) _ _ _ 0).value = _
      rw [value_walk]
      rfl
    rw [encode, value_encodeOver (mapM_bounded_eq (by decide)), if_neg (by decide), hwalk]
    rfl

end ThresholdEncoding.Encoder
