import ThresholdEncoding.Clause
import ThresholdEncoding.Domain.Error

/-!
# Options, failures and results of the encoder
-/

namespace ThresholdEncoding

/-- The options of an encoder. -/
structure EncoderOptions where
  /-- Round thresholds to values of the domain and replace literals that always or never hold by
  constants. Otherwise thresholds stay as they are. -/
  roundThresholds : Bool := true
  /-- Keep the requested threshold of a rounded literal, with the value it rounds to. -/
  keepThresholds : Bool := false
  /-- Report constraints that cannot hold and are not reified. -/
  detectInfeasible : Bool := true
  /-- Skip values that only lead to redundant clauses. -/
  prune : Bool := true
  deriving DecidableEq, Repr, Inhabited

/-- Why a constraint cannot be encoded. -/
inductive EncodeError where
  /-- An integer variable has not been declared. -/
  | unknownInt (x : IntVar)
  /-- Infinitely many values of a variable would have to be visited. -/
  | unbounded (x : IntVar)
  /-- An operation on domains fails. -/
  | domain (cause : DomainError)
  deriving DecidableEq, Repr

instance : ToString EncodeError where
  toString
    | .unknownInt x => "unknown integer variable " ++ toString x
    | .unbounded x => "cannot encode over the unbounded domain of " ++ toString x
    | .domain e => toString e

/-- The encoding of a constraint. -/
inductive Encoding where
  /-- The constraint holds just when all these clauses do. -/
  | clauses (l : List Clause)
  /-- The constraint never holds. -/
  | infeasible
  deriving DecidableEq, Repr

namespace Encoding

/-- Whether the constraint never holds. -/
def neverHolds : Encoding → Bool
  | infeasible => true
  | clauses _ => false

/-- The clauses, if there are any to be satisfied. -/
def clauses? : Encoding → Option (List Clause)
  | clauses l => some l
  | infeasible => none

/-- The number of clauses. -/
def clauseCount (t : Encoding) : Nat := (t.clauses?.getD []).length

/-- The number of literals in all clauses. -/
def literalCount (t : Encoding) : Nat := (t.clauses?.getD []).flatten.length

end Encoding

end ThresholdEncoding
