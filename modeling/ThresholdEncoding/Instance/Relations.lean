import ThresholdEncoding.Instance.Splitting

/-!
# Adding to an instance

Relations between integer variables are brought into the canonical form `w₁·x₁ + … ≥ bound`: an
upper bound is a lower bound of the opposite terms, an equality is two inequalities, and a
disequality is two inequalities of which a new boolean variable excuses one. The answers are
positions in the instance.
-/

namespace ThresholdEncoding

/-- Fails for the first term with an unknown variable or weight zero. -/
def VariableTable.requireTerms (table : VariableTable) (terms : List Term) :
    Except InstanceError Unit :=
  terms.forM fun t =>
    if !table.declaresInt t.var then .error (.unknownInt t.var)
    else if t.weight = 0 then .error (.zeroWeight t.var)
    else .ok ()

/-- Fails for an unknown boolean variable. -/
def VariableTable.requireBool (table : VariableTable) (b : BoolVar) : Except InstanceError Unit :=
  if table.declaresBool b then .ok () else .error (.unknownBool b)

/-- Fails for an unknown integer variable. -/
def VariableTable.requireInt (table : VariableTable) (x : IntVar) : Except InstanceError Unit :=
  if table.declaresInt x then .ok () else .error (.unknownInt x)

namespace Build

/-- Fails as a check against the declared variables does. -/
def require (c : VariableTable → Except InstanceError Unit) : Build Unit := do
  ofExcept (c (← get).table)

/-! ### Inequalities -/

/-- Adds `terms ≥ bound`. -/
def atLeast (terms : List Term) (bound : Int) : Build Nat := do
  require (·.requireTerms terms)
  pushAtLeast terms bound none

/-- Adds `terms ≥ bound`, reified. -/
def atLeastReified (terms : List Term) (bound : Int) (r : Reification) : Build Nat := do
  require (·.requireTerms terms)
  require (·.requireBool r.var)
  pushAtLeast terms bound (some r)

/-- Adds `terms ≤ bound`. -/
def atMost (terms : List Term) (bound : Int) : Build Nat := do
  atLeast (← ofExcept (Term.negAll terms)) (← ofExcept (InstanceError.checked (-bound)))

/-- Adds `terms ≤ bound`, reified. -/
def atMostReified (terms : List Term) (bound : Int) (r : Reification) : Build Nat := do
  atLeastReified (← ofExcept (Term.negAll terms)) (← ofExcept (InstanceError.checked (-bound))) r

/-- Adds `terms > bound`. -/
def greater (terms : List Term) (bound : Int) : Build Nat := do
  atLeast terms (← ofExcept (InstanceError.checked (bound + 1)))

/-- Adds `terms < bound`. -/
def less (terms : List Term) (bound : Int) : Build Nat := do
  atLeast (← ofExcept (Term.negAll terms)) (← ofExcept (InstanceError.checked (1 - bound)))

/-! ### Equalities and disequalities -/

/-- Adds `terms = bound`. -/
def equal (terms : List Term) (bound : Int) : Build Nat := do
  require (·.requireTerms terms)
  let opposite ← ofExcept (Term.negAll terms)
  let negBound ← ofExcept (InstanceError.checked (-bound))
  let _ ← pushAtLeast terms bound none
  pushAtLeast opposite negBound none

/-- Adds `terms ≠ bound`. A new boolean variable tells on which side of the bound the sum lies. -/
def different (terms : List Term) (bound : Int) : Build Nat := do
  require (·.requireTerms terms)
  let opposite ← ofExcept (Term.negAll terms)
  let above ← ofExcept (InstanceError.checked (bound + 1))
  let below ← ofExcept (InstanceError.checked (1 - bound))
  let r ← addBool true
  let _ ← pushAtLeast terms above (some ⟨r, true⟩)
  pushAtLeast opposite below (some ⟨r, false⟩)

/-- The pairs of an element of a list and a later one. -/
def pairsOf {α : Type} : List α → List (α × α)
  | [] => []
  | x :: xs => xs.map (x, ·) ++ pairsOf xs

/-- Adds `x ≠ y` for each pair. The answer is the position of the last constraint, or the one given
if there are no pairs. -/
def differentPairs (last : Nat) : List (IntVar × IntVar) → Build Nat
  | [] => return last
  | (x, y) :: rest => do
    let r ← addBool true
    let _ ← pushAtLeast [⟨x, 1⟩, ⟨y, -1⟩] 1 (some ⟨r, true⟩)
    let last ← pushAtLeast [⟨x, -1⟩, ⟨y, 1⟩] 1 (some ⟨r, false⟩)
    differentPairs last rest

/-- Adds that the variables at any two places of a list take different values. -/
def allDifferent (xs : List IntVar) : Build Nat := do
  if xs.length < 2 then throw (.arity "alldifferent" 2 xs.length)
  else do
    require fun table => xs.forM table.requireInt
    differentPairs 0 (pairsOf xs)

/-! ### Links, clauses and the objective -/

/-- Adds a link between a boolean and an integer variable. -/
def link (boolean : BoolAtom) (int : IntVar) : Build Nat := do
  match boolean with
  | .var b => require (·.requireBool b)
  | .const _ => pure ()
  require (·.requireInt int)
  modifyGet fun i => (i.links.length, { i with links := i.links ++ [⟨boolean, int⟩] })

/-- Adds a clause over boolean variables. -/
def clause (lits : BoolClause) : Build Nat := do
  require fun table => lits.forM fun l => table.requireBool l.var
  modifyGet fun i => (i.clauses.length, { i with clauses := i.clauses ++ [lits] })

/-- Adds a term to the objective. -/
def objectiveTerm (t : Term) : Build Unit := do
  require (·.requireInt t.var)
  modify fun i => { i with objective := i.objective.add t }

end Build

end ThresholdEncoding
