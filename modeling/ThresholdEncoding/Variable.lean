/-!
# Variables and assignments

Integer and boolean variables are numbered from `0`, each kind on its own. A variable is either
*given*, that is declared by the user, or *introduced* by the library to express a constraint; both
sorts of one kind share the numbering. Texts count from `1`.

An `Assignment` gives values to some of the variables.
-/

namespace ThresholdEncoding

/-- An integer variable. -/
structure IntVar where
  /-- The position among all integer variables. -/
  index : Nat
  /-- Whether the library introduced the variable. -/
  introduced : Bool := false
  deriving DecidableEq, Repr, Inhabited

instance : ToString IntVar where
  toString x := (if x.introduced then "s" else "x") ++ toString (x.index + 1)

/-- A boolean variable. -/
structure BoolVar where
  /-- The position among all boolean variables. -/
  index : Nat
  /-- Whether the library introduced the variable. -/
  introduced : Bool := false
  deriving DecidableEq, Repr, Inhabited

instance : ToString BoolVar where
  toString b := (if b.introduced then "_b" else "b") ++ toString (b.index + 1)

/-- A boolean variable or its negation. -/
structure BoolLit where
  /-- The variable. -/
  var : BoolVar
  /-- Whether the variable is negated. -/
  negated : Bool := false
  deriving DecidableEq, Repr, Inhabited

namespace BoolLit

/-- The opposite literal. -/
def complement (l : BoolLit) : BoolLit := { l with negated := !l.negated }

instance : ToString BoolLit where
  toString l := (if l.negated then "-" else "") ++ toString l.var

@[simp] theorem complement_complement (l : BoolLit) : l.complement.complement = l := by
  simp [complement]

end BoolLit

/-- A disjunction of boolean literals. -/
abbrev BoolClause := List BoolLit

/-- Values of some of the variables. -/
structure Assignment where
  /-- The value of an integer variable, if it has one. -/
  int? : IntVar → Option Int
  /-- The value of a boolean variable, if it has one. -/
  bool? : BoolVar → Option Bool

namespace Assignment

/-- The assignment with the given entries, of which the first for a variable counts. -/
def ofLists (ints : List (IntVar × Int)) (bools : List (BoolVar × Bool)) : Assignment where
  int? x := ints.lookup x
  bool? b := bools.lookup b

/-- The value of a boolean literal, if its variable has one. -/
def lit? (a : Assignment) (l : BoolLit) : Option Bool := (a.bool? l.var).map (· != l.negated)

/-- A literal and its complement have opposite values. -/
theorem lit?_complement (a : Assignment) (l : BoolLit) :
    a.lit? l.complement = (a.lit? l).map (!·) := by
  cases h : a.bool? l.var <;> simp [lit?, BoolLit.complement, h]

end Assignment

end ThresholdEncoding
