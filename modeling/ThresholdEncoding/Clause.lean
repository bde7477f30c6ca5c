import ThresholdEncoding.Variable

/-!
# Clauses over threshold literals

A threshold literal says on which side of a threshold an integer variable lies. Literals carry
*annotations* that do not change their meaning: whether the threshold was rounded up to a value of
the domain, or to which value.

* `Clause.evaluate`: three-valued truth under an assignment.
* `Clause.simplify`: drops constant false and repeated literals, and drops the whole clause if it
  always holds. Annotations do not count when literals are compared.
-/

namespace ThresholdEncoding

/-- A literal of the threshold encoding. -/
inductive Literal where
  /-- A constant. -/
  | const (value : Bool)
  /-- The variable is at least `value`, a value of its domain; or less, if negated. `rounded` tells
  that the requested threshold was rounded up to `value`. -/
  | atLeast (var : IntVar) (value : Int) (negated rounded : Bool)
  /-- The variable is at least `threshold`, which need not be a value of its domain; or less, if
  negated. `rounded?` may hold the value of the domain that the threshold rounds up to. -/
  | raw (var : IntVar) (threshold : Int) (negated : Bool) (rounded? : Option Int)
  /-- A boolean literal. -/
  | bool (lit : BoolLit)
  deriving DecidableEq, Repr, Inhabited

namespace Literal

instance : ToString Literal where
  toString
    | const b => toString b
    | atLeast x v negated _ =>
      (if negated then "-" else "") ++ toString x ++ ">=" ++ toString v
    | raw x t negated _ =>
      "(" ++ toString negated ++ ", " ++ toString x ++ ", " ++ toString t ++ ")"
    | bool l => toString l

/-- The truth value, undetermined if the variable has no value. -/
def evaluate (a : Assignment) : Literal → Option Bool
  | const b => some b
  | atLeast x t negated _ => (a.int? x).map fun v => decide (t ≤ v) != negated
  | raw x t negated _ => (a.int? x).map fun v => decide (t ≤ v) != negated
  | bool l => a.lit? l

/-- The opposite literal with the same annotation. -/
def complement : Literal → Literal
  | const b => const !b
  | atLeast x v negated rounded => atLeast x v (!negated) rounded
  | raw x t negated rounded? => raw x t (!negated) rounded?
  | bool l => bool l.complement

/-- The literal without its annotation. -/
def bare : Literal → Literal
  | atLeast x v negated _ => atLeast x v negated false
  | raw x t negated _ => raw x t negated none
  | l => l

variable {a : Assignment} {l : Literal}

@[simp] theorem evaluate_bare : l.bare.evaluate a = l.evaluate a := by cases l <;> rfl

/-- A literal and its complement have opposite values. -/
theorem evaluate_complement : l.complement.evaluate a = (l.evaluate a).map (!·) := by
  cases l with
  | const b => rfl
  | atLeast x t negated _ => cases h : a.int? x <;> cases negated <;> simp [complement, evaluate, h]
  | raw x t negated _ => cases h : a.int? x <;> cases negated <;> simp [complement, evaluate, h]
  | bool l => exact a.lit?_complement l

@[simp] theorem bare_bare : l.bare.bare = l.bare := by cases l <;> rfl

@[simp] theorem complement_complement : l.complement.complement = l := by
  cases l <;> simp [complement]

theorem bare_complement : l.complement.bare = l.bare.complement := by cases l <;> rfl

end Literal

/-- A disjunction of literals. -/
abbrev Clause := List Literal

namespace Clause

/-- The text of a clause. -/
def text (c : Clause) : String := "[" ++ ", ".intercalate (c.map toString) ++ "]"

/-- True if a literal is true, false if all are false, and undetermined otherwise. -/
def evaluate (a : Assignment) (c : Clause) : Option Bool :=
  if c.any fun l => l.evaluate a = some true then some true
  else if c.any fun l => l.evaluate a = none then none
  else some false

/-- The clause without constant false and repeated literals, or `none` if it always holds because
of a constant true or a literal whose complement is there too. The order is kept. -/
def simplify (c : Clause) : Option Clause := go [] c
where
  /-- Simplifies what follows literals that are, without annotations, those in `seen`. -/
  go (seen : List Literal) : Clause → Option Clause
    | [] => some []
    | l :: c =>
      if l = .const true ∨ l.complement.bare ∈ seen then none
      else if l = .const false ∨ l.bare ∈ seen then go seen c
      else (go (l.bare :: seen) c).map (l :: ·)

end Clause

end ThresholdEncoding
