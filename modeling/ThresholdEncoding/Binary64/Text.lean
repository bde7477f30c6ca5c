import ThresholdEncoding.Binary64.Basic

/-!
# Decimal texts of binary numbers

* `Binary64.ofDecimal?` reads a decimal text and rounds it to the nearest binary number.
* `Binary64.shortest` finds the fewest decimal digits that are nearer to the number than to any
  other binary number, and `Binary64.positional` writes them without an exponent.
* `Binary64.fixed` writes a number with a given count of decimal places, ties to even.
-/

namespace ThresholdEncoding.Binary64

/-! ### Reading -/

/-- Reads digits, most significant first, after the number `n`. -/
def readDigits (n : Nat) : List Char → Option Nat
  | [] => some n
  | c :: cs => if c.isDigit then readDigits (10 * n + (c.toNat - '0'.toNat)) cs else none

/-- Reads an optional sign: whether it is a minus, and what follows. -/
def readSign : List Char → Bool × List Char
  | '-' :: cs => (true, cs)
  | '+' :: cs => (false, cs)
  | cs => (false, cs)

/-- Reads an integer with an optional sign. -/
def readInteger? (cs : List Char) : Option Int :=
  let (negative, ds) := readSign cs
  if ds.isEmpty then none else (readDigits 0 ds).map fun n => if negative then -(n : Int) else n

/-- The exponents beyond which a decimal number is rounded like its sign and `0` or infinity. -/
def decimalLimit : Int := 400

/-- The binary number nearest to `digits * 10 ^ exponent`. -/
def ofScientific (negative : Bool) (digits : Nat) (exponent : Int) : Binary64 :=
  let magnitude := (toString digits).length + exponent
  if digits = 0 ∨ magnitude < -decimalLimit then finite negative 0 minExponent
  else if decimalLimit < magnitude then infinite negative
  else if 0 ≤ exponent then ofFraction negative (digits * Nat.pow 10 exponent.toNat) 1
  else ofFraction negative digits (Nat.pow 10 (-exponent).toNat)

/-- Reads digits with an optional point and an optional exponent, at least one digit before the
exponent. -/
def readNumeral? (negative : Bool) (cs : List Char) : Option Binary64 :=
  let isExponentMark := fun c : Char => c = 'e' || c = 'E'
  let mantissa := cs.takeWhile (!isExponentMark ·)
  let whole := mantissa.takeWhile (· != '.')
  let places := (mantissa.dropWhile (· != '.')).drop 1
  if whole.isEmpty && places.isEmpty then none
  else (readDigits 0 (whole ++ places)).bind fun digits =>
    match cs.dropWhile (!isExponentMark ·) with
    | [] => some (ofScientific negative digits (-places.length))
    | _ :: ds => (readInteger? ds).map fun e => ofScientific negative digits (e - places.length)

/-- Reads a decimal number, an infinity or the text of no number. -/
def ofDecimal? (s : String) : Option Binary64 :=
  let (negative, cs) := readSign s.toList
  let word := String.ofList (cs.map Char.toLower)
  if word = "inf" ∨ word = "infinity" then some (infinite negative)
  else if word = "nan" then some nan
  else readNumeral? negative cs

/-! ### Shortest digits -/

/-- Decimal digits and the place of the point: the number `0.digits * 10 ^ point`. -/
structure Digits where
  /-- The digits, the first of which is not `0`. -/
  digits : Nat
  /-- The place of the point after the first digits. -/
  point : Int
  deriving DecidableEq, Repr

/-- The place of the point of `num / den`: the least power of ten that exceeds the fraction. Any
positive binary number has a digit before its 400th place. -/
def pointOf (num den : Nat) : Int := (toString (num * Nat.pow 10 400 / den)).length - 400

/-- Whether `c * 10 ^ g` rounds to the binary number `m * 2 ^ e`: it lies between the midpoints to
the neighbours, themselves included if `m` is even. Everything is counted in quarters of a unit of
the last place, since below a power of two the neighbour is only half as far. -/
def roundsTo (m : Nat) (e : Int) (c : Nat) (g : Int) : Bool :=
  let below := if m = leadingBit ∧ minExponent < e then 4 * m - 1 else 4 * m - 2
  let above := 4 * m + 2
  -- both sides of `c * 10 ^ g ≤ t * 2 ^ (e - 2)`, cleared of denominators
  let left := c * Nat.pow 10 g.toNat * Nat.pow 2 (2 - e).toNat
  let right := fun t : Nat => t * Nat.pow 2 (e - 2).toNat * Nat.pow 10 (-g).toNat
  if m % 2 = 0 then right below ≤ left ∧ left ≤ right above
  else right below < left ∧ left < right above

/-- The nearest number with `n` digits that rounds to `m * 2 ^ e = num / den`, if there is one. -/
def withDigits? (m : Nat) (e : Int) (num den : Nat) (n : Nat) : Option Digits :=
  let point := pointOf num den
  let g := point - n
  let (a, b) :=
    if 0 ≤ g then (num, den * Nat.pow 10 g.toNat) else (num * Nat.pow 10 (-g).toNat, den)
  let low := a / b
  let high := low + 1
  -- the value itself may lie on the grid, and then `low` is exact
  let found := fun c : Nat => roundsTo m e c g
  if 2 * (a % b) < b ∧ found low = true then some ⟨low, point⟩
  else if found high = true then
    some (if high = Nat.pow 10 n then ⟨Nat.pow 10 (n - 1), point + 1⟩ else ⟨high, point⟩)
  else if found low = true then some ⟨low, point⟩
  else none

/-- The fewest digits that round to the positive number `m * 2 ^ e`, and of those the nearest.
Seventeen digits always suffice. -/
def shortest (m : Nat) (e : Int) : Digits :=
  let (num, den) := if 0 ≤ e then (m * Nat.pow 2 e.toNat, 1) else (m, Nat.pow 2 (-e).toNat)
  ((List.range 17).findSome? fun k => withDigits? m e num den (k + 1)).getD ⟨0, 0⟩

/-- A number of zeros. -/
def zeros (n : Nat) : String := String.ofList (List.replicate n '0')

/-- Digits written without an exponent, and without a point if there are no decimal places. -/
def Digits.positional (d : Digits) : String :=
  let cs := (toString d.digits).toList
  let k := d.point.toNat
  if d.point ≤ 0 then "0." ++ zeros (-d.point).toNat ++ toString d.digits
  else if cs.length ≤ k then toString d.digits ++ zeros (k - cs.length)
  else String.ofList (cs.take k) ++ "." ++ String.ofList (cs.drop k)

/-- The shortest text that reads back, without an exponent. -/
def positional : Binary64 → String
  | nan => "NaN"
  | infinite negative => if negative then "-inf" else "inf"
  | finite negative m e =>
    (if negative then "-" else "") ++ if m = 0 then "0" else (shortest m e).positional

instance : ToString Binary64 := ⟨positional⟩

/-! ### Fixed places -/

/-- The number with `places` decimal places, rounded from its exact value. -/
def fixed (places : Nat) : Binary64 → String
  | finite negative m e =>
    let (num, den) := scaleFraction (m * Nat.pow 10 places) 1 (-e)
    let n := roundQuotient num den
    let decimals := toString (n % Nat.pow 10 places)
    (if negative then "-" else "") ++ toString (n / Nat.pow 10 places) ++
      if places = 0 then "" else "." ++ zeros (places - decimals.length) ++ decimals
  | x => x.positional

end ThresholdEncoding.Binary64
