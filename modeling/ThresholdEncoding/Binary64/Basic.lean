/-!
# Binary floating point numbers of 64 bits

A finite number is `± significand * 2 ^ exponent`, kept as exact integers, so rounding is a function
on fractions and not an effect of a processor. Significands have at most 53 bits and exponents are
at least `-1074`.

* `roundQuotient`: the nearest integer to a fraction, ties to even.
* `Binary64.ofFraction`: the nearest binary number to a fraction, ties to even.
-/

namespace ThresholdEncoding

/-- The integer nearest to `num / den`; of two equally near ones the even one. -/
def roundQuotient (num den : Nat) : Nat :=
  let q := num / den
  let r := num % den
  if 2 * r < den then q else if den < 2 * r then q + 1 else q + q % 2

/-- A binary floating point number. -/
inductive Binary64 where
  /-- Not a number. -/
  | nan
  /-- An infinity. -/
  | infinite (negative : Bool)
  /-- The number `significand * 2 ^ exponent`, with a sign. -/
  | finite (negative : Bool) (significand : Nat) (exponent : Int)
  deriving DecidableEq, Repr, Inhabited

namespace Binary64

/-- The least exponent. -/
def minExponent : Int := -1074

/-- The greatest exponent. -/
def maxExponent : Int := 971

/-- Significands with a leading bit are at least this large and less than twice as large. -/
def leadingBit : Nat := Nat.pow 2 52

/-- Numerator and denominator of `num / (den * 2 ^ e)`. -/
def scaleFraction (num den : Nat) (e : Int) : Nat × Nat :=
  if 0 ≤ e then (num, den * Nat.pow 2 e.toNat) else (num * Nat.pow 2 (-e).toNat, den)

/-- The exponent under which `num / den` has a significand of 53 bits, or the least exponent if that
one is smaller. -/
def exponentOf (num den : Nat) : Int :=
  let guess : Int := num.log2 - den.log2 - 52
  let (n, d) := scaleFraction num den guess
  max minExponent (if n / d < leadingBit then guess - 1 else guess)

/-- The binary number nearest to the fraction `num / den`, ties to an even significand. Fractions
beyond the greatest exponent give an infinity. -/
def ofFraction (negative : Bool) (num den : Nat) : Binary64 :=
  if num = 0 then finite negative 0 minExponent
  else
    let e := exponentOf num den
    let (n, d) := scaleFraction num den e
    let m := roundQuotient n d
    -- rounding up may add a bit
    let (m, e) := if m = 2 * leadingBit then (leadingBit, e + 1) else (m, e)
    if maxExponent < e then infinite negative else finite negative m e

/-- The binary number nearest to a natural number. -/
def ofNat (n : Nat) : Binary64 := ofFraction false n 1

/-- The integer part of `significand * 2 ^ exponent`. -/
def wholePart (significand : Nat) (exponent : Int) : Nat :=
  if 0 ≤ exponent then significand * Nat.pow 2 exponent.toNat
  else significand / Nat.pow 2 (-exponent).toNat

/-- The integer next to the number towards zero, if the number is finite. -/
def truncate? : Binary64 → Option Int
  | finite negative m e => some (if negative then -(wholePart m e : Int) else wholePart m e)
  | _ => none

/-- The integer that the number is, if it is one. -/
def integer? : Binary64 → Option Int
  | finite negative m e =>
    if 0 ≤ e ∨ m % Nat.pow 2 (-e).toNat = 0 then (finite negative m e).truncate? else none
  | _ => none

/-- The number nearest to `total / count`, after both have been rounded to binary numbers. -/
def quotient (total count : Nat) : Binary64 :=
  match ofNat total, ofNat count with
  | finite _ m e, finite _ n f => ofFraction false (wholePart m e) (wholePart n f)
  | _, _ => nan

/-- The interchange format: a bit for the sign, eleven for the exponent and 52 for the significand
without its leading bit. -/
def toBits : Binary64 → Nat
  | nan => 2047 * leadingBit + leadingBit / 2
  | infinite negative => (if negative then Nat.pow 2 63 else 0) + 2047 * leadingBit
  | finite negative m e =>
    (if negative then Nat.pow 2 63 else 0) +
      (if m < leadingBit then m else (e + 1075).toNat * leadingBit + (m - leadingBit))

example : (ofNat 9007199254740993).integer? = some 9007199254740992 := by decide

example : (quotient 1 3).toBits = 0x3fd5555555555555 := by decide

end Binary64

end ThresholdEncoding
