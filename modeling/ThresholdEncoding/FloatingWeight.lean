import ThresholdEncoding.Binary64.Text
import ThresholdEncoding.Linear

/-!
# Terms with floating point weights

Weights that are read from numeric files are binary floating point numbers. They have to be integers
that fit.
-/

namespace ThresholdEncoding

/-- A weight that is no integer of the 64 bit range. -/
structure WeightError where
  /-- The weight. -/
  weight : Binary64
  deriving DecidableEq, Repr

instance : ToString WeightError where
  toString e := "weight " ++ toString e.weight ++ " is not an integer"

/-- The term with a floating point weight. -/
def Term.ofBinary64 (x : IntVar) (w : Binary64) : Except WeightError Term :=
  match w.integer?.bind Word.check? with
  | some n => .ok ⟨x, n⟩
  | none => .error ⟨w⟩

end ThresholdEncoding
