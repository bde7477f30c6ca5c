import ThresholdEncoding.Domain.Error
import ThresholdEncoding.FloatingWeight

/-!
# Failures while an instance is built
-/

namespace ThresholdEncoding

/-- Why something cannot be added to an instance. -/
inductive InstanceError where
  /-- An integer variable has not been declared. -/
  | unknownInt (x : IntVar)
  /-- A boolean variable has not been declared. -/
  | unknownBool (b : BoolVar)
  /-- A number is not of the kind that is needed. -/
  | typeMismatch (cause : WeightError)
  /-- A constraint has too few arguments. -/
  | arity (constraint : String) (least given : Nat)
  /-- A term has weight zero. -/
  | zeroWeight (x : IntVar)
  /-- An operation on domains fails. -/
  | domain (cause : DomainError)
  deriving DecidableEq, Repr

instance : ToString InstanceError where
  toString
    | .unknownInt x => "unknown integer variable " ++ toString x
    | .unknownBool b => "unknown boolean variable " ++ toString b
    | .typeMismatch e => "type mismatch: " ++ toString e
    | .arity c least given =>
      c ++ " needs at least " ++ toString least ++ " arguments, got " ++ toString given
    | .zeroWeight x => "term with variable " ++ toString x ++ " has weight 0"
    | .domain e => toString e

end ThresholdEncoding
