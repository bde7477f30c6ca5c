import ThresholdEncoding.Proofs.Encoder.Extremes

/-!
# When a constraint is reported as infeasible

The verdict compares the bound with a saturating sum of the terms' upper bounds. As long as no exact
maximum and no partial sum of them leaves the 64 bit range, the verdict is exact: it is given just
when no sum of domain values reaches the bound. Otherwise it depends on the side on which the range
is left first, and on nothing else: below it the constraint is reported, above it never.

* `encode_eq_infeasible_iff`: the exact condition.
* `infeasible_of_satisfiable`: the verdict can be wrong on either side.
-/

namespace ThresholdEncoding.Encoder

open Extended VariableTable

variable {e : Encoder} {c : LinearConstraint}

theorem reportsInfeasible_iff {x : Extended} : e.reportsInfeasible c x = true ↔
    e.options.detectInfeasible = true ∧ c.reification = none ∧ x < .fin c.bound := by
  simp [reportsInfeasible, and_assoc]

/-- The answer is the verdict only if the constraint is reported. -/
theorem encode_eq_infeasible_iff_reports (hc : e.table.DeclaresTerms c.terms) :
    (e.encode c).value = .ok .infeasible ↔ e.reportsInfeasible c
      (Extended.sum ((c.terms.map (clipped e.table)).map (·.upper))) = true := by
  rw [encode, value_encodeOver (mapM_bounded_eq hc)]
  split_ifs with h
  · exact iff_of_true rfl h
  · refine iff_of_false (fun h' => ?_) h
    obtain ⟨cs, -, hcs⟩ := Except.bind_eq_ok_iff.mp h'
    cases hr : c.reification <;> rw [hr] at hcs <;> cases hcs

/-- **The exact condition of the verdict.** The exact suprema of the terms are added from the left.
If neither a supremum nor a partial sum leaves the 64 bit range, a constraint that may be reported is
reported just when no sum of domain values reaches the bound. Otherwise it is reported just when the
range is first left below. -/
theorem encode_eq_infeasible_iff (e : Encoder) (c : LinearConstraint) (hT : e.table.Valid)
    (hc : e.table.DeclaresTerms c.terms) :
    (∀ t ∈ c.terms,
      Direction.descending.Starts (e.table.values t) (e.table.extreme .descending t)) ∧
    ((e.encode c).value = .ok .infeasible ↔
      e.options.detectInfeasible = true ∧ c.reification = none ∧
        (departure? 0 (e.table.extremes .descending c.terms) = some .descending ∨
          departure? 0 (e.table.extremes .descending c.terms) = none ∧
            ∀ n ∈ e.table.sums c.terms, n < c.bound)) := by
  refine ⟨fun t ht => starts_extreme hT (hc t ht).1 (hc t ht).2 _, ?_⟩
  rw [encode_eq_infeasible_iff_reports hc, reportsInfeasible_iff, sum_upper_clipped]
  refine and_congr_right fun _ => and_congr_right fun _ => ?_
  cases hdep : departure? 0 (e.table.extremes .descending c.terms) with
  | some dir => cases dir <;> simp [Direction.infinity]
  | none =>
    obtain ⟨hmem, hmax⟩ := starts_sums .descending hT hc (forall_isFinite_of_departure? hdep)
    simp only [Option.map_none, Option.getD_none, fin_lt_fin, reduceCtorEq, true_and, false_or]
    exact ⟨fun h n hn => lt_of_le_of_lt (not_lt.mp (hmax n hn)) h, fun h => h _ hmem⟩

/-- Two small numbers below the range, and then back into it. -/
def lowSum : LinearConstraint where
  terms := [⟨⟨3, false⟩, 1⟩, ⟨⟨4, false⟩, 1⟩, ⟨⟨1, false⟩, 1⟩]
  bound := -4611686018427387906

/-- Two large numbers above the range, and then back into it. -/
def highSum : LinearConstraint where
  terms := [⟨⟨1, false⟩, 1⟩, ⟨⟨2, false⟩, 1⟩, ⟨⟨3, false⟩, 1⟩]
  bound := 4611686018427387904

theorem declaresTerms_lowSum : spreadEncoder.table.DeclaresTerms lowSum.terms := by decide

theorem declaresTerms_highSum : spreadEncoder.table.DeclaresTerms highSum.terms := by decide

theorem encode_eq_infeasible_iff_spread :
    (spreadEncoder.encode lowSum).value = .ok .infeasible ∧
      (spreadEncoder.encode highSum).value ≠ .ok .infeasible := by
  obtain ⟨-, hlow⟩ :=
    encode_eq_infeasible_iff spreadEncoder lowSum valid_spreadEncoder declaresTerms_lowSum
  obtain ⟨-, hhigh⟩ :=
    encode_eq_infeasible_iff spreadEncoder highSum valid_spreadEncoder declaresTerms_highSum
  have hdep : departure? 0 (spreadEncoder.table.extremes .descending highSum.terms) =
    some .ascending := by decide
  refine ⟨hlow.mpr ⟨rfl, rfl, Or.inl (by decide)⟩, fun h => ?_⟩
  obtain ⟨-, -, h⟩ := hhigh.mp h
  simp [hdep] at h

/-- **The verdict can be wrong on either side**: a constraint that can hold is reported, and one that
never holds is not. -/
theorem infeasible_of_satisfiable :
    ((spreadEncoder.encode lowSum).value = .ok .infeasible ∧
      ∃ n ∈ spreadEncoder.table.sums lowSum.terms, lowSum.bound ≤ n) ∧
    ((spreadEncoder.encode highSum).value ≠ .ok .infeasible ∧
      ∀ n ∈ spreadEncoder.table.sums highSum.terms, n < highSum.bound) := by
  refine ⟨⟨?_, ?_⟩, ?_, fun n hn => ?_⟩
  · rw [encode_eq_infeasible_iff_reports declaresTerms_lowSum]
    decide
  · obtain ⟨hmem, -⟩ :=
      starts_sums .descending valid_spreadEncoder declaresTerms_lowSum (by decide)
    exact ⟨_, hmem, by decide⟩
  · rw [Ne, encode_eq_infeasible_iff_reports declaresTerms_highSum]
    decide
  · obtain ⟨-, hmax⟩ :=
      starts_sums .descending valid_spreadEncoder declaresTerms_highSum (by decide)
    exact lt_of_le_of_lt (not_lt.mp (hmax n hn)) (by decide)

end ThresholdEncoding.Encoder
