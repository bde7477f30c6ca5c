import ThresholdEncoding.Variable
import ThresholdEncoding.Word

/-!
# Linear constraints

The canonical constraint is `w₁·x₁ + … + wₙ·xₙ ≥ bound`. It may be *reified*: a boolean literal is
attached to it, and the constraint then asks for the inequality or the literal.

* `LinearConstraint.evaluate`: the truth value under an assignment, computed with exact sums.
-/

namespace ThresholdEncoding

/-- A weighted integer variable. -/
structure Term where
  /-- The variable. -/
  var : IntVar
  /-- The weight. -/
  weight : Int
  deriving DecidableEq, Repr, Inhabited

namespace Term

instance : ToString Term where
  toString t := "(" ++ toString t.var ++ ", " ++ toString t.weight ++ ")"

/-- The term with the opposite weight, which is exact here. A weight is negated by `neg?`, which refuses
what does not fit, or without a check as in `Objective.minimized`. -/
protected def neg (t : Term) : Term := { t with weight := -t.weight }

instance : Neg Term := ⟨Term.neg⟩

/-- The term with the opposite weight, if that weight fits. -/
def neg? (t : Term) : Option Term := (Word.check? (-t.weight)).map fun w => { t with weight := w }

@[simp] theorem var_neg (t : Term) : (-t).var = t.var := rfl

@[simp] theorem weight_neg (t : Term) : (-t).weight = -t.weight := rfl

theorem neg?_eq_some_iff {t u : Term} : t.neg? = some u ↔ u = -t ∧ Word.Fits (-t.weight) := by
  simp only [neg?, Option.map_eq_some_iff, Word.check?_eq_some_iff]
  constructor
  · rintro ⟨_, ⟨rfl, h⟩, rfl⟩; exact ⟨rfl, h⟩
  · rintro ⟨rfl, h⟩; exact ⟨_, ⟨rfl, h⟩, rfl⟩

/-- The exact value of a term, if its variable has one. -/
def value? (t : Term) (a : Assignment) : Option Int := (a.int? t.var).map (t.weight * ·)

/-- The exact sum of a list of terms, if all their variables have values. -/
def sum? (a : Assignment) : List Term → Option Int
  | [] => some 0
  | t :: ts => (t.value? a).bind fun v => (sum? a ts).map (v + ·)

end Term

/-- A boolean variable attached to a constraint. -/
structure Reification where
  /-- The variable. -/
  var : BoolVar
  /-- Whether the variable itself, and not its negation, is the attached literal. -/
  polarity : Bool
  deriving DecidableEq, Repr, Inhabited

/-- The attached literal: where it holds, the constraint asks for nothing more. -/
def Reification.lit (r : Reification) : BoolLit := ⟨r.var, !r.polarity⟩

/-- The constraint that a weighted sum is at least a bound. -/
structure LinearConstraint where
  /-- The weighted variables, in order. -/
  terms : List Term
  /-- The least allowed sum. -/
  bound : Int
  /-- The literal that excuses the constraint, if any. -/
  reification : Option Reification := none
  deriving DecidableEq, Repr, Inhabited

namespace LinearConstraint

instance : ToString LinearConstraint where
  toString c :=
    let link := match c.reification with
      | some r => " <-> " ++ toString r.lit
      | none => ""
    "[" ++ ", ".intercalate (c.terms.map toString) ++ "] >= " ++ toString c.bound ++ link

/-- The truth value, undetermined if a needed variable has no value. The attached literal is asked
only where the inequality fails. The sum is exact. One that is accumulated in 128 bits is the same
unless it leaves their range, which takes two extreme products. -/
def evaluate (c : LinearConstraint) (a : Assignment) : Option Bool :=
  (Term.sum? a c.terms).bind fun total =>
    if c.bound ≤ total then some true
    else match c.reification with
      | some r => a.lit? r.lit
      | none => some false

end LinearConstraint

end ThresholdEncoding
