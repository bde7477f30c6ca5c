import ThresholdEncoding.Domain.Sum
import ThresholdEncoding.VariableTable

/-!
# Objectives

A weighted sum of integer variables that is to be minimized or maximized.

* `Objective.minimized`: the terms of the equivalent objective to minimize.
* `Objective.domain`: the values the objective can take, or an interval around them.
-/

namespace ThresholdEncoding

/-- What is to be done with an objective. -/
inductive Strategy where
  /-- Look for small values. -/
  | minimize
  /-- Look for large values. -/
  | maximize
  deriving DecidableEq, Repr, Inhabited

/-- A linear objective. -/
structure Objective where
  /-- The weighted variables, in order. -/
  terms : List Term := []
  /-- What is to be done with their sum. -/
  strategy : Strategy := .minimize
  deriving DecidableEq, Repr, Inhabited

namespace Objective

/-- Adds a term. -/
def add (o : Objective) (t : Term) : Objective := { o with terms := o.terms ++ [t] }

/-- The terms of the objective whose minimization is equivalent. Weights are negated without a check:
the least one stays as it is, where a checked build panics. -/
def minimized (o : Objective) : List Term :=
  match o.strategy with
  | .minimize => o.terms
  | .maximize => o.terms.map fun t => { t with weight := Word.wrap (-t.weight) }

/-- The product of the sizes, if all are known and positions can count each product on the way. -/
def sizeProduct? (l : List Domain) : Option Nat :=
  l.foldlM (fun acc d => d.size?.bind fun n =>
    if acc * n < Word.positionLimit then some (acc * n) else none) 1

/-- The domain of a sum of one value from each domain: exact if there are few combinations, else the
interval between the sums of the bounds. -/
def sumDomain (first : Domain) (rest : List Domain) : LoggedExcept DomainError Domain :=
  if (sizeProduct? (first :: rest)).any (· ≤ Domain.pairLimit) then
    rest.foldlM Domain.addLogged first
  else
    let all := first :: rest
    pure (.interval (.sum (all.map (·.lower))) (.sum (all.map (·.upper))))

/-- The domain of the objective, or `none` if it has no terms. -/
def domain (o : Objective) (t : VariableTable) : LoggedExcept InstanceError (Option Domain) := do
  match ← LoggedExcept.lift (o.terms.mapM t.scaledDomain) with
  | [] => return none
  | [d] => return some d
  | first :: rest => return some (← (sumDomain first rest).mapError .domain)

end Objective

end ThresholdEncoding
