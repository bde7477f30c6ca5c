import ThresholdEncoding.Instance.Basic

/-!
# Splitting long constraints

The encoding of a constraint grows with the product of the sizes of its domains, so a constraint of
many terms can be replaced by several constraints of at most `termLimit` terms over introduced
variables. The domains of these variables are computed before anything is changed.

* `Build.splitExactly`: the last two terms are replaced by a variable equal to their sum, until
  few enough terms remain.
* `Build.splitByEstimates`: variables `s₁ ≤ t₁`, `s₂ ≤ s₁ + t₂`, … estimate the sums of the first
  terms from below, and the last one has to reach the bound.
* `Build.pushAtLeast`: appends a constraint, splitting it if the options ask for it.
-/

namespace ThresholdEncoding

/-- The number of terms up to which constraints are not split. -/
def termLimit : Nat := 3

/-- The opposites of all terms. -/
def Term.negAll (ts : List Term) : Except InstanceError (List Term) :=
  ts.mapM fun t =>
    match t.neg? with
    | some u => .ok u
    | none => .error (.domain .overflow)

/-- The number itself, or an overflow. -/
def InstanceError.checked (n : Int) : Except InstanceError Int :=
  match Word.check? n with
  | some n => .ok n
  | none => .error (.domain .overflow)

/-- The domains of the sums that arise when terms are added one after the other to something with
the domain `acc`. -/
def VariableTable.runningSums (table : VariableTable) (acc : Domain) :
    List Term → LoggedExcept InstanceError (List Domain)
  | [] => return []
  | t :: ts => do
    let d ← LoggedExcept.lift (table.scaledDomain t)
    let sum ← (d.addLogged acc).mapError .domain
    return sum :: (← table.runningSums sum ts)

namespace Build

/-- Appends `terms = bound` as two constraints. The answer is the position of the second one. -/
def pushEqual (terms : List Term) (bound : Int) : Build Nat := do
  let opposite ← ofExcept (Term.negAll terms)
  let negBound ← ofExcept (InstanceError.checked (-bound))
  let _ ← push { terms, bound }
  push { terms := opposite, bound := negBound }

/-- Replaces the first two terms of a reversed list by a variable of the first domain that is equal
to their sum, and goes on like this through all domains. -/
def foldPairs : List Domain → List Term → Build (List Term)
  | d :: ds, last :: second :: rest => do
    let sum ← addInt d true
    note (.introducedSum sum second last)
    let _ ← pushEqual [second, last, ⟨sum, -1⟩] 0
    foldPairs ds (⟨sum, 1⟩ :: rest)
  | _, terms => return terms

/-- Replaces the last two terms by a variable equal to their sum until `termLimit` terms remain. -/
def splitExactly (terms : List Term) (bound : Int) (r : Option Reification) : Build Nat := do
  let table := (← get).table
  match terms.reverse with
  | [] => push { terms, bound, reification := r }
  | last :: others => do
    let tail ← ofExcept (table.scaledDomain last)
    let sums ← ofLogged (table.runningSums tail (others.take (terms.length - termLimit)))
    let remaining ← foldPairs sums (last :: others)
    push { terms := remaining.reverse, bound, reification := r }

/-- Introduces a variable for each term and its domain that is at most the sum of the term and the
variable before. The answer is the last variable. -/
def estimate (prev : IntVar) : List (Term × Domain) → Build IntVar
  | [] => return prev
  | (t, d) :: rest => do
    let next ← addInt d true
    note (.introducedNext next prev t)
    let _ ← push { terms := [t, ⟨prev, 1⟩, ⟨next, -1⟩], bound := 0 }
    estimate next rest

/-- Introduces variables that estimate the sums of the first terms from below, and asks the last one
to reach the bound. -/
def splitByEstimates (terms : List Term) (bound : Int) (r : Option Reification) : Build Nat := do
  let table := (← get).table
  match terms with
  | [] => push { terms, bound, reification := r }
  | t :: rest => do
    let d ← ofExcept (table.scaledDomain t)
    let sums ← ofLogged (table.runningSums d rest)
    let first ← addInt d true
    note (.introducedFirst first t)
    let _ ← push { terms := [t, ⟨first, -1⟩], bound := 0 }
    let last ← estimate first (rest.zip sums)
    push { terms := [⟨last, 1⟩], bound, reification := r }

/-- Appends `terms ≥ bound`, split if it has many terms and the options ask for it. The answer is
the position of the last constraint. -/
def pushAtLeast (terms : List Term) (bound : Int) (r : Option Reification) : Build Nat := do
  if terms.length ≤ termLimit then push { terms, bound, reification := r }
  else match (← get).options.splitting with
    | .keep => push { terms, bound, reification := r }
    | .exactSums => splitExactly terms bound r
    | .estimates => splitByEstimates terms bound r

end Build

end ThresholdEncoding
