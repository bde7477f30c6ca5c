import ThresholdEncoding.Domain.Basic
import ThresholdEncoding.Instance.Error

/-!
# Tables of variables

A `VariableTable` holds the declared variables in the order of their numbers: the domain of each
integer variable, and for either kind whether the variable is given or introduced. A variable is
known only under the sort under which it was declared.

* `VariableTable.domain?_addInt_of_lt`: what a declaration does to the look-up of domains.
-/

namespace ThresholdEncoding

/-- An integer variable's entry in a table. -/
structure IntDeclaration where
  /-- The values of the variable. -/
  domain : Domain
  /-- Whether the library introduced the variable. -/
  introduced : Bool := false
  deriving DecidableEq, Repr

/-- The declared variables. -/
structure VariableTable where
  /-- The integer variables, by number. -/
  ints : List IntDeclaration := []
  /-- For each boolean variable whether it was introduced. -/
  bools : List Bool := []
  deriving DecidableEq, Repr, Inhabited

namespace VariableTable

/-- The number that the next integer variable gets. -/
def nextInt (t : VariableTable) (introduced : Bool) : IntVar := ⟨t.ints.length, introduced⟩

/-- The number that the next boolean variable gets. -/
def nextBool (t : VariableTable) (introduced : Bool) : BoolVar := ⟨t.bools.length, introduced⟩

/-- Declares the next integer variable. -/
def addInt (t : VariableTable) (d : Domain) (introduced : Bool) : VariableTable :=
  { t with ints := t.ints ++ [⟨d, introduced⟩] }

/-- Declares the next boolean variable. -/
def addBool (t : VariableTable) (introduced : Bool) : VariableTable :=
  { t with bools := t.bools ++ [introduced] }

/-- The domain of an integer variable, if it has been declared. -/
def domain? (t : VariableTable) (x : IntVar) : Option Domain :=
  match t.ints[x.index]? with
  | some e => if e.introduced = x.introduced then some e.domain else none
  | none => none

/-- Whether an integer variable has been declared. -/
def declaresInt (t : VariableTable) (x : IntVar) : Bool := (t.domain? x).isSome

/-- Whether a boolean variable has been declared. -/
def declaresBool (t : VariableTable) (b : BoolVar) : Bool := t.bools[b.index]? = some b.introduced

/-- The domain of a term: that of its variable, scaled by its weight. -/
def scaledDomain (t : VariableTable) (s : Term) : Except InstanceError Domain :=
  if s.weight = 0 then .error (.zeroWeight s.var)
  else match t.domain? s.var with
    | some d => (d.scale s.weight).mapError .domain
    | none => .error (.unknownInt s.var)

/-- The integer variables with their domains, by number. -/
def intVars (t : VariableTable) : List (IntVar × Domain) :=
  t.ints.zipIdx.map fun (e, i) => (⟨i, e.introduced⟩, e.domain)

/-- The boolean variables, by number. -/
def boolVars (t : VariableTable) : List BoolVar :=
  t.bools.zipIdx.map fun (introduced, i) => ⟨i, introduced⟩

/-! ### Look-up after a declaration -/

variable {t : VariableTable} {d : Domain} {introduced : Bool}

theorem domain?_addInt_of_lt {x : IntVar} (h : x.index < t.ints.length) :
    (t.addInt d introduced).domain? x = t.domain? x := by
  simp [domain?, addInt, List.getElem?_append_left h]

/-- A declared variable has the domain it was declared with. -/
@[simp] theorem domain?_addInt_nextInt :
    (t.addInt d introduced).domain? (t.nextInt introduced) = some d := by
  simp [domain?, addInt, nextInt]

@[simp] theorem domain?_addBool {x : IntVar} : (t.addBool introduced).domain? x = t.domain? x := rfl

@[simp] theorem declaresBool_addInt {b : BoolVar} :
    (t.addInt d introduced).declaresBool b = t.declaresBool b := rfl

@[simp] theorem declaresBool_addBool_nextBool :
    (t.addBool introduced).declaresBool (t.nextBool introduced) = true := by
  simp [declaresBool, addBool, nextBool]

end VariableTable

end ThresholdEncoding
