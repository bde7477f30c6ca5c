import ThresholdEncoding.Log
import ThresholdEncoding.Objective

/-!
# Instances

An `Instance` is a constraint problem: declared variables, linear constraints in canonical form,
clauses and links that are kept as they are, and an objective. It is built by computations of type
`Build α`, which change an instance, report events and may fail; a failure keeps the changes made
before it.

* `Build.result`, `Build.after`, `Build.log`: what a computation does to an instance. The lemmas
  `result_bind` and `after_bind` say how they compose.
* `Build.addInt`, `Build.addBool`, `Build.push`: the steps that everything else is made of.
-/

namespace ThresholdEncoding

/-- What is done with constraints of many terms. -/
inductive Splitting where
  /-- They stay as they are. -/
  | keep
  /-- The last two terms are replaced by a variable equal to their sum, again and again. -/
  | exactSums
  /-- Variables estimate the sums of the first terms from below, one after the other. -/
  | estimates
  deriving DecidableEq, Repr, Inhabited

/-- The options of an instance. -/
structure InstanceOptions where
  /-- What is done with constraints of many terms. -/
  splitting : Splitting := .keep
  deriving DecidableEq, Repr, Inhabited

/-- The boolean side of a link. -/
inductive BoolAtom where
  /-- A boolean variable. -/
  | var (b : BoolVar)
  /-- A constant. -/
  | const (value : Bool)
  deriving DecidableEq, Repr, Inhabited

instance : ToString BoolAtom where
  toString
    | .var b => toString b
    | .const value => if value then "1" else "0"

/-- States that an integer variable is `1` if the boolean side is true, and `0` otherwise. -/
structure Link where
  /-- The boolean side. -/
  boolean : BoolAtom
  /-- The integer variable. -/
  int : IntVar
  deriving DecidableEq, Repr, Inhabited

/-- A constraint problem. -/
structure Instance where
  /-- The name, if it has one. -/
  name : Option String := none
  /-- The declared variables. -/
  table : VariableTable := {}
  /-- The linear constraints. -/
  constraints : List LinearConstraint := []
  /-- The clauses over boolean variables. -/
  clauses : List BoolClause := []
  /-- The links between boolean and integer variables. -/
  links : List Link := []
  /-- The objective. -/
  objective : Objective := {}
  /-- The options. -/
  options : InstanceOptions := {}
  /-- Whether some domain is known to have an open bound. -/
  unbounded : Bool := false
  deriving DecidableEq, Repr, Inhabited

/-- A computation that changes an instance, reports events and may fail. -/
abbrev Build := ExceptT InstanceError (StateT Instance Logged)

namespace Build

variable {α β ε : Type}

/-- The result and the changed instance, with the events. -/
def run (b : Build α) (i : Instance) : Logged (Except InstanceError α × Instance) :=
  StateT.run (ExceptT.run b) i

/-- The result of a computation on an instance. -/
def result (b : Build α) (i : Instance) : Except InstanceError α := (b.run i).value.1

/-- The instance after a computation. -/
def after (b : Build α) (i : Instance) : Instance := (b.run i).value.2

/-- The events of a computation. -/
def log (b : Build α) (i : Instance) : List LogEvent := (b.run i).log

/-- A logged result that changes nothing. -/
def ofLogged (x : LoggedExcept InstanceError α) : Build α := ExceptT.mk fun i => do
  return (← ExceptT.run x, i)

/-- A result that changes nothing. -/
def ofExcept (x : Except InstanceError α) : Build α := ofLogged (LoggedExcept.lift x)

/-- Reports an event. -/
def note (e : LogEvent) : Build Unit := ofLogged (LoggedExcept.note e)

variable {i : Instance}

@[simp] theorem result_pure (a : α) : (pure a : Build α).result i = .ok a := rfl

@[simp] theorem after_pure (a : α) : (pure a : Build α).after i = i := rfl

@[simp] theorem result_ofLogged (x : LoggedExcept InstanceError α) :
    (ofLogged x).result i = x.value := rfl

@[simp] theorem after_ofLogged (x : LoggedExcept InstanceError α) : (ofLogged x).after i = i := rfl

@[simp] theorem result_ofExcept (x : Except InstanceError α) : (ofExcept x).result i = x := rfl

@[simp] theorem after_ofExcept (x : Except InstanceError α) : (ofExcept x).after i = i := rfl

@[simp] theorem after_note (e : LogEvent) : (note e).after i = i := rfl

/-- The second of two computations sees what the first one has changed. -/
theorem result_bind (x : Build α) (f : α → Build β) :
    (x >>= f).result i = x.result i >>= fun a => (f a).result (x.after i) := by
  show ((ExceptT.bindCont f (x.run i).value.1).run (x.run i).value.2).value.1 = _
  unfold result after
  cases h : (x.run i).value.1 <;> rfl

/-- A failure keeps the changes made before it. -/
theorem after_bind (x : Build α) (f : α → Build β) :
    (x >>= f).after i =
      match x.result i with
      | .ok a => (f a).after (x.after i)
      | .error _ => x.after i := by
  show ((ExceptT.bindCont f (x.run i).value.1).run (x.run i).value.2).value.2 = _
  unfold result after
  cases h : (x.run i).value.1 <;> rfl

/-! ### Declarations -/

/-- Declares the next integer variable, whose domain must have values. -/
def addInt (d : Domain) (introduced : Bool) : Build IntVar := do
  ofExcept (d.requireValues.mapError .domain)
  modifyGet fun i => (i.table.nextInt introduced,
    { i with table := i.table.addInt d introduced, unbounded := i.unbounded || d.isOpen })

/-- Declares the next boolean variable. -/
def addBool (introduced : Bool) : Build BoolVar :=
  modifyGet fun i => (i.table.nextBool introduced,
    { i with table := i.table.addBool introduced })

/-- Appends a constraint as it is. The answer is its position. -/
def push (c : LinearConstraint) : Build Nat :=
  modifyGet fun i => (i.constraints.length, { i with constraints := i.constraints ++ [c] })

/-- Names the instance. -/
def giveName (name : String) : Build Unit := modify fun i => { i with name := some name }

/-- Records that some domain has an open bound. -/
def assumeUnbounded : Build Unit := modify fun i => { i with unbounded := true }

/-- Sets what is to be done with the objective. -/
def chooseStrategy (s : Strategy) : Build Unit :=
  modify fun i => { i with objective := { i.objective with strategy := s } }

end Build

end ThresholdEncoding
