import ThresholdEncoding.Domain.Function

/-!
# Failures of domain operations

`DomainError` names the causes; its text is what a user reads. A record of a domain whose arguments
do not fit its tag is quoted in the text, argument by argument. One of the causes, `panic`, is no
answer: the run ends there.
-/

namespace ThresholdEncoding

/-- An argument in the record of a domain. -/
inductive DomainArgument where
  /-- A bound, an index or a multiplier. -/
  | bound (n : Extended)
  /-- A function. -/
  | function (f : MonotoneFn)
  /-- A list of values. -/
  | values (l : List Int)
  deriving DecidableEq, Repr, Inhabited

namespace DomainArgument

/-- A labelled list of fields, as arguments are quoted in messages. -/
def quoteFields (label : String) (fields : List (String × String)) : String :=
  label ++ " \x7b " ++ ", ".intercalate (fields.map fun f => f.1 ++ ": " ++ f.2) ++ " \x7d"

/-- The argument as it is quoted in messages. -/
def quote : DomainArgument → String
  | bound .negInf => "Int(NegInf)"
  | bound (.fin n) => "Int(Fin(" ++ toString n ++ "))"
  | bound .posInf => "Int(PosInf)"
  | function (.affine s o) =>
    "Func(" ++ quoteFields "Affine" [("slope", toString s), ("offset", toString o)] ++ ")"
  | function (.power e c) =>
    "Func(" ++ quoteFields "Power" [("exponent", toString e), ("coefficient", toString c)] ++ ")"
  | function (.exponential b c) =>
    "Func(" ++ quoteFields "Exponential" [("base", toString b), ("coefficient", toString c)] ++ ")"
  | values l => "Values([" ++ ", ".intercalate (l.map toString) ++ "])"

end DomainArgument

/-- What is wrong with the arguments of a domain. -/
inductive ArgumentFault where
  /-- A bound is not a number. -/
  | notANumber
  /-- The upper index of a function range is negative infinity. -/
  | upperIndexNegInf
  /-- The arguments do not fit the tag of the record. -/
  | mismatch (tag : String) (arguments : List DomainArgument)
  deriving DecidableEq, Repr

instance : ToString ArgumentFault where
  toString
    | .notANumber => "bound is NaN"
    | .upperIndexNegInf => "upper index must not be negative infinity"
    | .mismatch tag l =>
      tag ++ " does not take arguments [" ++ ", ".intercalate (l.map (·.quote)) ++ "]"

/-- Why an operation on domains gives no result. -/
inductive DomainError where
  /-- The sought value lies above the upper bound. -/
  | outOfRange (value : Int) (upper : Extended)
  /-- A domain with an open bound that is no interval cannot be added. -/
  | unsupportedMerge
  /-- Values were to be counted from an open end. -/
  | openBound
  /-- There are no values. -/
  | empty (lower upper : Extended)
  /-- The multiplier is zero. -/
  | zeroMultiplier
  /-- The function is not strictly monotone on the index range. -/
  | notMonotone (f : MonotoneFn)
  /-- A number does not fit the 64 bit range. -/
  | overflow
  /-- A record has an unknown tag. -/
  | unknownTag (tag : String)
  /-- The arguments of a record or of a constructor are wrong. -/
  | badArguments (fault : ArgumentFault)
  /-- No failure that a caller could handle: the run panics at a point that was taken to be out of
  reach, in release builds and in checked ones. -/
  | panic
  deriving DecidableEq, Repr

instance : ToString DomainError where
  toString
    | .outOfRange v u =>
      "value " ++ toString v ++ " is out of range (upper bound " ++ toString u ++ ")"
    | .unsupportedMerge => "domains with open bounds can only be merged when they are contiguous"
    | .openBound => "cannot enumerate values starting from an unbounded end of the domain"
    | .empty l u => "domain [" ++ toString l ++ ", " ++ toString u ++ "] is empty"
    | .zeroMultiplier => "domain multipliers must be nonzero"
    | .notMonotone f => toString f ++ " is not strictly monotonic on the index range"
    | .overflow => "value overflows a 64 bit integer"
    | .unknownTag tag => "unknown domain type `" ++ tag ++ "`"
    | .badArguments fault => "invalid domain arguments: " ++ toString fault
    | .panic => "internal error: entered unreachable code"

end ThresholdEncoding
