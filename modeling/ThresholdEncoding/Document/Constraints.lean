import ThresholdEncoding.Clause
import ThresholdEncoding.Document.Basic
import ThresholdEncoding.Encoder.Options
import ThresholdEncoding.Instance.Basic

/-!
# Documents of variables, constraints and options
-/

namespace ThresholdEncoding

open Storable

/-- The number of variables of one kind that documents can tell apart. -/
def variableLimit : Nat := 4294967296

/-! ### Variables -/

/-- The fields of a variable. -/
def writeVariable (index : Nat) (introduced : Bool) : Document :=
  .fields [("idx", .integer index), ("internal", write introduced)]

/-- The number and the sort of a variable. -/
def readVariable? (d : Document) : Option (Nat × Bool) := do
  return (← (d.field? "idx").bind (Document.index? variableLimit), ← readField? Bool "internal" d)

instance : Storable IntVar where
  write x := writeVariable x.index x.introduced
  read? d := (readVariable? d).map fun (n, introduced) => ⟨n, introduced⟩

instance : Storable BoolVar where
  write b := writeVariable b.index b.introduced
  read? d := (readVariable? d).map fun (n, introduced) => ⟨n, introduced⟩

instance : Storable BoolLit where
  write l := .fields [("var", write l.var), ("negated", write l.negated)]
  read? d := do return ⟨← readField? BoolVar "var" d, ← readField? Bool "negated" d⟩

/-! ### Linear constraints -/

instance : Storable Term where
  write t := .fields [("var", write t.var), ("weight", write t.weight)]
  read? d := do return ⟨← readField? IntVar "var" d, ← readField? Int "weight" d⟩

instance : Storable Reification where
  write r := .fields [("var", write r.var), ("polarity", write r.polarity)]
  read? d := do return ⟨← readField? BoolVar "var" d, ← readField? Bool "polarity" d⟩

instance : Storable LinearConstraint where
  write c := .fields
    [("terms", write c.terms), ("bound", write c.bound), ("reified", writeOptional c.reification)]
  read? d := do
    return ⟨← readField? (List Term) "terms" d, ← readField? Int "bound" d,
      ← readOptional? Reification "reified" d⟩

/-! ### Clauses -/

instance : Storable Literal where
  write
    | .const b => .tagged "Const" (write b)
    | .atLeast x v negated rounded => .tagged "Ge" (.fields
      [("var", write x), ("value", write v), ("negated", write negated), ("approx", write rounded)])
    | .raw x t negated rounded? => .tagged "Raw" (.fields
      [("var", write x), ("threshold", write t), ("negated", write negated),
        ("rounded", writeOptional rounded?)])
    | .bool l => .tagged "Bool" (write l)
  read? d := do
    match ← d.tagged? with
    | ("Const", d) => return .const (← read? d)
    | ("Ge", d) =>
      return .atLeast (← readField? IntVar "var" d) (← readField? Int "value" d)
        (← readField? Bool "negated" d) (← readField? Bool "approx" d)
    | ("Raw", d) =>
      return .raw (← readField? IntVar "var" d) (← readField? Int "threshold" d)
        (← readField? Bool "negated" d) (← readOptional? Int "rounded" d)
    | ("Bool", d) => return .bool (← read? d)
    | _ => none

/-- A clause as a record of its literals. -/
def Clause.write (c : Clause) : Document := .fields [("lits", Storable.write c)]

/-- The clause of a record of its literals. -/
def Clause.read? (d : Document) : Option Clause := readField? (List Literal) "lits" d

/-! ### Links and objectives -/

instance : Storable BoolAtom where
  write
    | .var b => .tagged "Var" (write b)
    | .const b => .tagged "Const" (write b)
  read? d := do
    match ← d.tagged? with
    | ("Var", d) => return .var (← read? d)
    | ("Const", d) => return .const (← read? d)
    | _ => none

instance : Storable Link where
  write l := .fields [("boolean", write l.boolean), ("int", write l.int)]
  read? d := do return ⟨← readField? BoolAtom "boolean" d, ← readField? IntVar "int" d⟩

instance : Storable Strategy where
  write
    | .minimize => .text "Minimize"
    | .maximize => .text "Maximize"
  read?
    | .text "Minimize" => some .minimize
    | .text "Maximize" => some .maximize
    | _ => none

instance : Storable Objective where
  write o := .fields [("terms", write o.terms), ("strategy", write o.strategy)]
  read? d := do
    return ⟨← readField? (List Term) "terms" d, ← readField? Strategy "strategy" d⟩

/-! ### Options -/

instance : Storable Splitting where
  write
    | .keep => .text "None"
    | .exactSums => .text "EqualityChain"
    | .estimates => .text "PrefixSum"
  read?
    | .text "None" => some .keep
    | .text "EqualityChain" => some .exactSums
    | .text "PrefixSum" => some .estimates
    | _ => none

instance : Storable InstanceOptions where
  write c := .fields [("split", write c.splitting)]
  read? d := do return ⟨← readField? Splitting "split" d⟩

instance : Storable EncoderOptions where
  write c := .fields
    [("translate", write c.roundThresholds), ("raw_output", write c.keepThresholds),
      ("infeasible_detection", write c.detectInfeasible), ("prune", write c.prune)]
  read? d := do
    return ⟨← readField? Bool "translate" d, ← readField? Bool "raw_output" d,
      ← readField? Bool "infeasible_detection" d, ← readField? Bool "prune" d⟩

end ThresholdEncoding
