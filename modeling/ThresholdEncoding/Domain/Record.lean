import ThresholdEncoding.Domain.Basic

/-!
# Records of domains

A domain can be stored as a `Domain.Record`: the name of its form and the data it is made of, with
the multiplier last. Reading a record back makes the same checks as building the domain, and refuses
domains without values.
-/

namespace ThresholdEncoding

/-- The name of the form of a domain and the data it is made of. -/
structure Domain.Record where
  /-- The name of the form. -/
  tag : String
  /-- The data, the multiplier last. -/
  arguments : List DomainArgument
  deriving DecidableEq, Repr

/-- The forms of value sets. -/
inductive Form where
  /-- An interval. -/
  | interval
  /-- An interval together with `0`. -/
  | intervalWithZero
  /-- A list of values. -/
  | listed
  /-- The image of an index range under a function. -/
  | image
  deriving DecidableEq, Repr

namespace Form

/-- The name of a form in records. -/
def name : Form → String
  | interval => "ContiguousRange"
  | intervalWithZero => "SemiContiguousRange"
  | listed => "EnumeratedSet"
  | image => "MonotonicFunctionRange"

/-- The form with a given name. -/
def ofName? (s : String) : Option Form :=
  [interval, intervalWithZero, listed, image].find? fun f => f.name = s

@[simp] theorem ofName?_name (f : Form) : ofName? f.name = some f := by cases f <;> decide

end Form

/-- The form of a shape. -/
def Shape.form : Shape → Form
  | interval _ _ => .interval
  | intervalWithZero _ _ => .intervalWithZero
  | listed _ => .listed
  | image _ _ _ => .image

/-- The data of a form in records. -/
def Shape.arguments : Shape → List DomainArgument
  | interval lo hi => [.bound lo, .bound hi]
  | intervalWithZero lo hi => [.bound lo, .bound hi]
  | listed l => [.values l]
  | image f lo hi => [.bound (.fin lo), .bound hi, .function f]

namespace Domain

/-- The name of the form of a domain. -/
def formName (d : Domain) : String := d.shape.form.name

/-- The record of a domain. -/
def toRecord (d : Domain) : Domain.Record where
  tag := d.formName
  arguments := d.shape.arguments ++ [.bound (.fin d.multiplier)]

end Domain

namespace Domain.Record

/-- The failure of a record whose data does not fit its tag. -/
def mismatch (r : Domain.Record) : DomainError := .badArguments (.mismatch r.tag r.arguments)

/-- The multiplier in the last place of a record. -/
def multiplier (r : Domain.Record) : DomainArgument → Except DomainError Int
  | .bound (.fin m) => .ok m
  | _ => .error r.mismatch

/-- The domain of the given form that the data of a record describes. -/
def buildForm (r : Domain.Record) : Form → Except DomainError Domain
  | .interval =>
    match r.arguments with
    | [.bound lo, .bound hi, m] => do (Domain.interval lo hi).setMultiplier (← r.multiplier m)
    | _ => .error r.mismatch
  | .intervalWithZero =>
    match r.arguments with
    | [.bound lo, .bound hi, m] => do
      (Domain.intervalWithZero lo hi).setMultiplier (← r.multiplier m)
    | _ => .error r.mismatch
  | .listed =>
    match r.arguments with
    | [.values l, m] => do (Domain.ofList l).setMultiplier (← r.multiplier m)
    | _ => .error r.mismatch
  | .image =>
    match r.arguments with
    | [.bound (.fin lo), .bound hi, .function f, m] => do
      (← Domain.image f lo hi).setMultiplier (← r.multiplier m)
    | _ => .error r.mismatch

/-- The domain of a record, which may have no values. -/
def build (r : Domain.Record) : Except DomainError Domain :=
  match Form.ofName? r.tag with
  | some form => r.buildForm form
  | none => .error (.unknownTag r.tag)

/-- The domain of a record, which must have values. -/
def toDomain (r : Domain.Record) : Except DomainError Domain := do
  let d ← r.build
  d.requireValues
  return d

end Domain.Record

end ThresholdEncoding
