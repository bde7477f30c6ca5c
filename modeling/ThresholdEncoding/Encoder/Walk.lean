import ThresholdEncoding.Domain.Basic
import ThresholdEncoding.Encoder.Options
import ThresholdEncoding.Log

/-!
# Walking over the values of a leading term

To encode `w * x + rest ≥ bound`, the values of `x` are visited from the one that helps the sum
least. For each the clauses of what remains to be shown of `rest` are asked for. The walk ends with
the values, or before a value from which on the constraint holds whatever the rest is.

* `walk`: the clauses of all visited values, one after the other.
-/

namespace ThresholdEncoding

/-- A term with the bounds of its value. -/
structure BoundedTerm where
  /-- The term. -/
  term : Term
  /-- The lower bound of its value. -/
  lower : Extended
  /-- The upper bound of its value. -/
  upper : Extended
  deriving DecidableEq, Repr

/-- The direction in which the values of a variable make a term grow. -/
def Term.direction (t : Term) : Direction := .ofStep t.weight

/-- A value of a leading term settles the constraint: with it the sum reaches the bound even if the
rest takes its least value. -/
def settles (restLower : Extended) (bound contribution : Int) : Bool :=
  .fin bound ≤ restLower + .fin contribution

/-- Visits the values of the variable of `t` in the domain `d` from position `k` on, until one
settles the constraint. `body` gives the clauses for a value and the contribution it makes to the
sum. -/
def walk (t : Term) (d : Domain) (restLower : Extended) (bound : Int)
    (body : Int → Int → LoggedExcept EncodeError (List Clause)) (k : Nat) :
    LoggedExcept EncodeError (List Clause) :=
  match _h : d.at? t.direction k with
  | none => return []
  | some v =>
    match Word.check? (t.weight * v) with
    | none => throw (.domain .overflow)
    | some contribution =>
      if settles restLower bound contribution then do
        LoggedExcept.note (.settled t.var v)
        return []
      else do
        let here ← body v contribution
        let further ← walk t d restLower bound body (k + 1)
        return here ++ further
termination_by d.shape.reach - k
decreasing_by have := Domain.lt_reach_of_at? _h; omega

end ThresholdEncoding
