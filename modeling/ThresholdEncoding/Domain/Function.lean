import ThresholdEncoding.Direction
import ThresholdEncoding.Extended

/-!
# Monotone functions

The functions whose images of an index range can serve as a set of values: affine functions, powers
and exponentials. `value` is the exact function, `value?` computes it in the 64 bit range, one
operation after the other, and `direction?` tells in which direction it goes on an index range.
-/

namespace ThresholdEncoding

/-- A function from indices to values. -/
inductive MonotoneFn where
  /-- `slope * i + offset`. -/
  | affine (slope offset : Int)
  /-- `coefficient * i ^ exponent`. -/
  | power (exponent : Nat) (coefficient : Int)
  /-- `coefficient * base ^ i`, for indices that are not negative. -/
  | exponential (base coefficient : Int)
  deriving DecidableEq, Repr, Inhabited

namespace MonotoneFn

instance : ToString MonotoneFn where
  toString
    | affine s o => toString s ++ "*i + " ++ toString o
    | power e c => toString c ++ "*i^" ++ toString e
    | exponential b c => toString c ++ "*" ++ toString b ++ "^i"

/-- The exact value at an index. -/
def value : MonotoneFn → Int → Int
  | affine s o, i => s * i + o
  | power e c, i => c * i.pow e
  | exponential b c, i => c * b.pow i.toNat

/-- The number of exponents an exponential admits. -/
def exponentLimit : Int := 4294967296

/-- The value at an index, refused if a step of the computation does not fit, or for an exponential
whose index is no exponent. -/
def value? : MonotoneFn → Int → Option Int
  | affine s o, i => (Word.check? (s * i)).bind fun p => Word.check? (p + o)
  | power e c, i => (Word.pow? i e).bind fun p => Word.check? (p * c)
  | exponential b c, i =>
    if 0 ≤ i ∧ i < exponentLimit then (Word.pow? b i.toNat).bind fun p => Word.check? (p * c)
    else none

/-- The direction in which the function goes on the indices from `lo` to `hi`, if it is strictly
monotone there. An even power is so on one side of `0` only. -/
def direction? (lo : Int) (hi : Extended) : MonotoneFn → Option Direction
  | affine s _ => if s = 0 then none else some (.ofStep s)
  | power e c =>
    if e = 0 ∨ c = 0 then none
    else if e % 2 = 1 ∨ 0 ≤ lo then some (.ofStep c)
    else if hi ≤ .fin 0 then some (.ofStep (-c))
    else none
  | exponential b c => if b < 2 ∨ c = 0 ∨ lo < 0 then none else some (.ofStep c)

end MonotoneFn

end ThresholdEncoding
