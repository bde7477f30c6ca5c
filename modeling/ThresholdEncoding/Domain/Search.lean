import ThresholdEncoding.BoundarySearch
import ThresholdEncoding.Domain.Basic

/-!
# Ranks and rounding

`rank` counts the values below a number, `roundUp` finds the least value that is not below it, and
`contains` tells whether the number is a value. Where neighbouring values have a known distance the
answers are computed; elsewhere they are searched for among the positions.
-/

namespace ThresholdEncoding.Domain

/-- The number of values below `v`, which is the position of `v` if it is a value. -/
def rank (d : Domain) (v : Int) : Except DomainError Nat :=
  match d.lower with
  | .fin lo =>
    if v ≤ lo then .ok 0
    else match d.step? with
      | some s =>
        let i := ((v - lo + s - 1) / s).toNat
        .ok (match d.size? with
          | some n => min i n
          | none => i)
      | none => .ok (BoundarySearch.boundary d.size? fun k => (d.ascending? k).any (· < v))
  | _ => .error .openBound

/-- The number itself, or an overflow. -/
def checked (n : Int) : Except DomainError Int :=
  match Word.check? n with
  | some n => .ok n
  | none => .error .overflow

/-- The least number not below `v` on the grid of width `s` through a finite bound, or through `0`
if both bounds are infinite. -/
def roundUpOnGrid (lo hi : Extended) (s v : Int) : Except DomainError Int :=
  match lo, hi with
  | .fin lo, _ => if v ≤ lo then .ok lo else checked (v + (lo - v) % s)
  | _, .fin hi => checked (v + (hi - v) % s)
  | _, _ => checked (v + -v % s)

/-- The least value that is not below `v`. Without a known distance the value is searched for from a
finite bound on; if both bounds are infinite the run panics. -/
def roundUp (d : Domain) (v : Int) : Except DomainError Int :=
  if d.upper < .fin v then .error (.outOfRange v d.upper)
  else match d.step? with
    | some s => roundUpOnGrid d.lower d.upper s v
    | none =>
      if d.lower.isFinite then do
        match d.ascending? (← d.rank v) with
        | some w => .ok w
        | none => .error (.outOfRange v d.upper)
      else
        -- the values not below `v` are counted from the upper bound, which is one of them if it is finite
        match BoundarySearch.boundary d.size? fun k => (d.descending? k).any (v ≤ ·) with
        | 0 => .error .panic
        | above + 1 =>
          match d.descending? above with
          | some w => .ok w
          | none => .error .panic

/-- Whether `v` is a value: it is, if rounding does not move it. Where rounding panics, so does this
question; the answer is then only nominal. -/
def contains (d : Domain) (v : Int) : Bool :=
  match d.roundUp v with
  | .ok w => w = v
  | .error _ => false

end ThresholdEncoding.Domain
