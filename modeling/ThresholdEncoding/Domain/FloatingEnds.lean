import ThresholdEncoding.Binary64.Text
import ThresholdEncoding.Domain.Basic

/-!
# Intervals with floating point ends

Ends that are read from numeric files are binary floating point numbers. Finite ones are truncated
towards zero and have to fit, infinite ones leave the interval open.
-/

namespace ThresholdEncoding

/-- The end that a binary number stands for. -/
def Extended.ofBinary64 : Binary64 → Except DomainError Extended
  | .nan => .error (.badArguments .notANumber)
  | .infinite negative => .ok (if negative then .negInf else .posInf)
  | x@(.finite _ _ _) =>
    match x.truncate?.bind Word.check? with
    | some n => .ok (.fin n)
    | none => .error .overflow

namespace Domain

/-- The integers between two ends. -/
def intervalOfBinary64 (lo hi : Binary64) : Except DomainError Domain := do
  return interval (← Extended.ofBinary64 lo) (← Extended.ofBinary64 hi)

/-- The integers between two ends, and `0`. -/
def intervalWithZeroOfBinary64 (lo hi : Binary64) : Except DomainError Domain := do
  return intervalWithZero (← Extended.ofBinary64 lo) (← Extended.ofBinary64 hi)

end Domain

end ThresholdEncoding
