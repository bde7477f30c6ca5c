import ThresholdEncoding.Domain.Record
import ThresholdEncoding.Instance.Relations

/-!
# Records of instances

All that makes up an instance apart from its options can be stored as an `Instance.Record`. Reading
a record back declares and adds everything again, in order, and fails as these steps do; variables
have to be listed in the order of their numbers. Constraints are taken as they are, without
splitting.
-/

namespace ThresholdEncoding

/-- The data of an instance. -/
structure Instance.Record where
  /-- The name, if the instance has one. -/
  name : Option String := none
  /-- The integer variables and their domains. -/
  domains : List (IntVar × Domain) := []
  /-- The boolean variables. -/
  bools : List BoolVar := []
  /-- The linear constraints. -/
  constraints : List LinearConstraint := []
  /-- The clauses over boolean variables. -/
  clauses : List BoolClause := []
  /-- The links between boolean and integer variables. -/
  links : List Link := []
  /-- The objective. -/
  objective : Objective := {}
  /-- Whether some domain is known to have an open bound. -/
  unbounded : Bool := false
  deriving DecidableEq, Repr

namespace Instance

/-- The record of an instance. -/
def toRecord (i : Instance) : Instance.Record where
  name := i.name
  domains := i.table.intVars
  bools := i.table.boolVars
  constraints := i.constraints
  clauses := i.clauses
  links := i.links
  objective := i.objective
  unbounded := i.unbounded

end Instance

namespace Build

/-- Declares an integer variable, which must have the next number. -/
def restoreInt (x : IntVar) (d : Domain) : Build Unit := do
  require fun table => if x.index = table.ints.length then .ok () else .error (.unknownInt x)
  let _ ← addInt d x.introduced

/-- Declares a boolean variable, which must have the next number. -/
def restoreBool (b : BoolVar) : Build Unit := do
  require fun table => if b.index = table.bools.length then .ok () else .error (.unknownBool b)
  let _ ← addBool b.introduced

/-- Appends a constraint over declared variables as it is. -/
def restoreConstraint (c : LinearConstraint) : Build Unit := do
  require (·.requireTerms c.terms)
  match c.reification with
  | some r => require (·.requireBool r.var)
  | none => pure ()
  let _ ← push c

/-- Adds everything that a record holds. -/
def restore (r : Instance.Record) : Build Unit := do
  modify fun i => { i with name := r.name }
  r.domains.forM fun (x, d) => restoreInt x d
  r.bools.forM restoreBool
  r.constraints.forM restoreConstraint
  r.clauses.forM fun lits => do let _ ← clause lits
  r.links.forM fun l => do let _ ← link l.boolean l.int
  r.objective.terms.forM objectiveTerm
  chooseStrategy r.objective.strategy
  if r.unbounded then assumeUnbounded

end Build

namespace Instance.Record

/-- The instance of a record. -/
def toInstance (r : Instance.Record) : Except InstanceError Instance :=
  let (outcome, i) := ((Build.restore r).run {}).value
  outcome.map fun _ => i

end Instance.Record

end ThresholdEncoding
