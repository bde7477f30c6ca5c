import Mathlib.Tactic
import ThresholdEncoding.Clause
import ThresholdEncoding.Encoder.Options
import ThresholdEncoding.Linear

/-!
# Truth under a valuation

A valuation gives a value to every variable. Under it, a linear constraint holds or does not, and a
list of clauses is satisfied or is not; both agree with the three-valued evaluation.

* `LinearConstraint.Holds`, `evaluate_toAssignment`: the meaning of a constraint.
* `Valuation.Satisfies`, `Encoding.Satisfied`: the meaning of an encoding.
-/

namespace ThresholdEncoding

/-- A value for every variable. -/
structure Valuation where
  /-- The values of the integer variables. -/
  int : IntVar → Int
  /-- The values of the boolean variables. -/
  bool : BoolVar → Bool

namespace Valuation

variable (ν : Valuation)

/-- The assignment of all values. -/
def toAssignment : Assignment := ⟨fun x => some (ν.int x), fun b => some (ν.bool b)⟩

/-- The value of a boolean literal. -/
def lit (l : BoolLit) : Bool := ν.bool l.var != l.negated

/-- The exact sum of a list of terms. -/
def sum (ts : List Term) : Int := (ts.map fun t => t.weight * ν.int t.var).sum

/-- All clauses are true. -/
def Satisfies (cs : List Clause) : Prop := ∀ c ∈ cs, Clause.evaluate ν.toAssignment c = some true

end Valuation

/-- The sum reaches the bound, or the attached literal is true. -/
def LinearConstraint.Holds (c : LinearConstraint) (ν : Valuation) : Prop :=
  c.bound ≤ ν.sum c.terms ∨ ∃ r, c.reification = some r ∧ ν.lit r.lit = true

/-- All clauses are true; an infeasible constraint is never satisfied. -/
def Encoding.Satisfied (t : Encoding) (ν : Valuation) : Prop :=
  match t with
  | .clauses cs => ν.Satisfies cs
  | .infeasible => False

variable {ν : Valuation}

/-! ### Constraints -/

namespace Valuation

@[simp] theorem sum_nil : ν.sum [] = 0 := rfl

@[simp] theorem sum_cons {t : Term} {ts : List Term} :
    ν.sum (t :: ts) = t.weight * ν.int t.var + ν.sum ts := by
  simp [sum]

@[simp] theorem sum_append {ts us : List Term} : ν.sum (ts ++ us) = ν.sum ts + ν.sum us := by
  simp [sum]

@[simp] theorem sum_reverse {ts : List Term} : ν.sum ts.reverse = ν.sum ts := by
  simp [sum, List.sum_reverse]

theorem sum_map_neg {ts : List Term} : ν.sum (ts.map (- ·)) = -ν.sum ts := by
  induction ts with
  | nil => rfl
  | cons t ts ih =>
    rw [List.map_cons, sum_cons, sum_cons, ih, Term.weight_neg, Term.var_neg]; ring

theorem sum?_toAssignment (ts : List Term) : Term.sum? ν.toAssignment ts = some (ν.sum ts) := by
  induction ts with
  | nil => rfl
  | cons t ts ih => simp [Term.sum?, Term.value?, toAssignment, ← ih]

theorem lit?_toAssignment (l : BoolLit) : ν.toAssignment.lit? l = some (ν.lit l) := rfl

/-- Only the values of the variables of a list of terms count for their sum. -/
theorem sum_congr {μ : Valuation} {ts : List Term} (h : ∀ t ∈ ts, ν.int t.var = μ.int t.var) :
    ν.sum ts = μ.sum ts := by
  unfold sum
  congr 1
  exact List.map_congr_left fun t ht => by rw [h t ht]

end Valuation

/-- **Under a valuation a constraint is true just when it holds.** -/
theorem LinearConstraint.evaluate_toAssignment (c : LinearConstraint) :
    c.evaluate ν.toAssignment = some true ↔ c.Holds ν := by
  unfold evaluate Holds
  rw [Valuation.sum?_toAssignment, Option.bind_some]
  split_ifs with h
  · simp [h]
  · cases c.reification with
    | none => simp [h]
    | some r => simp [h, Valuation.lit?_toAssignment]

/-! ### Clauses -/

namespace Clause

theorem evaluate_eq_some_true_iff {a : Assignment} {c : Clause} : c.evaluate a = some true ↔
    ∃ l ∈ c, l.evaluate a = some true := by
  unfold evaluate
  split_ifs with h1 h2
  · simpa using h1
  · simp only [List.any_eq_true, decide_eq_true_eq] at h1
    simp [h1]
  · simp only [List.any_eq_true, decide_eq_true_eq] at h1
    simp [h1]

end Clause

namespace Valuation

variable {l : Literal} {c : Clause} {cs ds : List Clause}

@[simp] theorem satisfies_nil : ν.Satisfies [] := by simp [Satisfies]

@[simp] theorem satisfies_empty : ¬ ν.Satisfies [[]] := by
  simp [Satisfies, Clause.evaluate]

@[simp] theorem satisfies_unit :
    ν.Satisfies [[l]] ↔ l.evaluate ν.toAssignment = some true := by
  simp [Satisfies, Clause.evaluate_eq_some_true_iff]

theorem satisfies_append : ν.Satisfies (cs ++ ds) ↔ ν.Satisfies cs ∧ ν.Satisfies ds := by
  simp only [Satisfies, List.mem_append]
  constructor
  · exact fun h => ⟨fun c hc => h c (Or.inl hc), fun c hc => h c (Or.inr hc)⟩
  · rintro ⟨h1, h2⟩ c (hc | hc)
    · exact h1 c hc
    · exact h2 c hc

/-- A literal in front of all clauses excuses all of them. -/
theorem satisfies_map_cons : ν.Satisfies (cs.map (l :: ·)) ↔
    l.evaluate ν.toAssignment = some true ∨ ν.Satisfies cs := by
  simp only [Satisfies, List.forall_mem_map, Clause.evaluate_eq_some_true_iff, List.mem_cons,
    exists_eq_or_imp]
  by_cases h : l.evaluate ν.toAssignment = some true <;> simp [h]

/-- So does a literal at their end. -/
theorem satisfies_map_concat : ν.Satisfies (cs.map (· ++ [l])) ↔
    l.evaluate ν.toAssignment = some true ∨ ν.Satisfies cs := by
  simp only [Satisfies, List.forall_mem_map, Clause.evaluate_eq_some_true_iff, List.mem_append,
    List.mem_singleton, or_and_right, exists_or, exists_eq_left]
  by_cases h : l.evaluate ν.toAssignment = some true <;> simp [h]

theorem evaluate_bool {b : BoolLit} :
    (Literal.bool b).evaluate ν.toAssignment = some true ↔ ν.lit b = true := by
  simp [Literal.evaluate, lit?_toAssignment]

end Valuation

end ThresholdEncoding
