import ThresholdEncoding.Domain.Search
import ThresholdEncoding.Encoder.Walk
import ThresholdEncoding.VariableTable

/-!
# The threshold encoding of linear constraints

An integer variable `x` is represented by the literals `x ≥ v` for the values `v` of its domain. The
constraint `w * x + rest ≥ bound` with `w > 0` is encoded by the clauses
`x ≥ v + 1 ∨ rest ≥ bound - w * v` for the values `v`, where the second part is encoded in the same
way; for `w < 0` by `x < v ∨ rest ≥ bound - w * v`. A constraint on one variable is a literal.

* `Encoder.thresholdLiteral`: the literal of a threshold over the domain of a variable.
* `Encoder.encode`: the clauses of a constraint.
-/

namespace ThresholdEncoding

/-- An encoder for constraints over the variables of a table. -/
structure Encoder where
  /-- The variables. -/
  table : VariableTable
  /-- The options. -/
  options : EncoderOptions := {}
  deriving DecidableEq, Repr

/-- Domains over which the values of some variables are visited, instead of those of the table. -/
abbrev Overrides := IntVar → Option Domain

namespace Encoder

/-- The domain of a variable of the table. -/
def domain (e : Encoder) (x : IntVar) : Except EncodeError Domain :=
  match e.table.domain? x with
  | some d => .ok d
  | none => .error (.unknownInt x)

/-- The literal for `x ≥ threshold` where `d` is the domain of `x`; for `x < threshold` if negated.
Thresholds that all values or no values reach give constants, others are rounded up to a value. -/
def literalOver (keepThresholds : Bool) (d : Domain) (negated : Bool) (x : IntVar)
    (threshold : Int) : Except DomainError Literal :=
  if .fin threshold ≤ d.lower then .ok (.const !negated)
  else if d.upper < .fin threshold then .ok (.const negated)
  else do
    let v ← d.roundUp threshold
    return if keepThresholds then .raw x threshold negated (some v)
      else .atLeast x v negated (v != threshold)

/-- The literal for `x ≥ threshold`, or for `x < threshold` if negated. -/
def thresholdLiteral (e : Encoder) (negated : Bool) (x : IntVar) (threshold : Int) :
    Except EncodeError Literal :=
  if e.options.roundThresholds then do
    (literalOver e.options.keepThresholds (← e.domain x) negated x threshold).mapError .domain
  else .ok (.raw x threshold negated none)

/-- The term with its bounds over the domain in the table. -/
def bounded (e : Encoder) (t : Term) : Except EncodeError BoundedTerm := do
  let d ← e.domain t.var
  let lo := d.lower.scale t.weight
  let hi := d.upper.scale t.weight
  return if 0 < t.weight then ⟨t, lo, hi⟩ else ⟨t, hi, lo⟩

/-- The literal for `w * x ≥ bound`. With a negative weight it says that `x` is below a threshold,
and always holds if that threshold is too large to be written. -/
def lastLiteral (e : Encoder) (t : Term) (bound : Int) : Except EncodeError Literal :=
  if 0 < t.weight then e.thresholdLiteral false t.var (Word.ceilDiv bound t.weight)
  else match (Word.floorDiv? bound t.weight).bind fun q => Word.check? (q + 1) with
    | some threshold => e.thresholdLiteral true t.var threshold
    | none => .ok (.const true)

/-- The literal that excuses a leading variable from the value `v`: the variable lies beyond `v` in
the direction that makes the sum grow. -/
def leadingLiteral (e : Encoder) (t : Term) (v : Int) : Except EncodeError Literal :=
  match t.direction with
  | .ascending =>
    match Word.check? (v + 1) with
    | some above => e.thresholdLiteral false t.var above
    | none => .ok (.const false)
  | .descending => e.thresholdLiteral true t.var v

/-- The position of the first value that needs clauses. `gap` is what the leading term has to
contribute if the rest takes its greatest value: of the values that contribute less, all but the
last lead to clauses that the last one's imply. -/
def firstPosition (d : Domain) (t : Term) (gap : Int) : Except DomainError Nat :=
  match t.direction with
  | .ascending => do return (← d.rank (Word.ceilDiv gap t.weight)) - 1
  | .descending =>
    match (Word.floorDiv? gap t.weight).bind fun q => Word.check? (q + 1), d.size? with
    | some threshold, some n => do return n - (← d.rank threshold) - 1
    | _, _ => .ok 0

/-- The position at which the walk over the values of a leading term starts. -/
def startPosition (d : Domain) (t : Term) (restUpper : Extended) (bound : Int) (pruned : Bool) :
    Except DomainError Nat :=
  match restUpper.finite?.bind fun hi => Word.check? (bound - hi) with
  | some gap => if pruned then firstPosition d t gap else .ok 0
  | none => .ok 0

/-- How the values of a leading variable are to be visited. -/
structure Visit where
  /-- The values. -/
  domain : Domain
  /-- The position of the first value. -/
  start : Nat
  /-- Whether redundant values before it are skipped. -/
  pruned : Bool
  deriving DecidableEq, Repr

/-- The domain over which the values of a variable are visited. -/
def visitedDomain (e : Encoder) (overrides : Overrides) (x : IntVar) : Except EncodeError Domain :=
  match overrides x with
  | some d => .ok d
  | none => e.domain x

/-- How the values of the variable of a leading term are to be visited. Without an end of the values
or a lower bound of the rest no value need ever settle the constraint, and without a first value
there is nowhere to start. -/
def visit (e : Encoder) (overrides : Overrides) (t : Term) (restLower restUpper : Extended)
    (bound : Int) : Except EncodeError Visit := do
  let d ← e.visitedDomain overrides t.var
  let pruned := e.options.prune && !d.isOpen
  if (d.startBound t.direction.reverse).isFinite || restLower.isFinite then
    let start ← (startPosition d t restUpper bound pruned).mapError .domain
    if (d.startBound t.direction).isFinite then .ok ⟨d, start, pruned⟩
    else .error (.unbounded t.var)
  else .error (.unbounded t.var)

/-- The literal that excuses a leading variable from the value `v`, and the bound that remains for
the rest if it takes that value. -/
def branch (e : Encoder) (t : Term) (bound v contribution : Int) :
    Except EncodeError (Literal × Int) := do
  let l ← e.leadingLiteral t v
  match Word.check? (bound - contribution) with
  | some residual => .ok (l, residual)
  | none => .error (.domain .overflow)

/-- The clauses for `terms ≥ bound`, where the terms come with their bounds. -/
def sumClauses (e : Encoder) (overrides : Overrides) :
    List BoundedTerm → Int → LoggedExcept EncodeError (List Clause)
  | [], bound => return if bound ≤ 0 then [] else [[]]
  | [b], bound => do return [[← LoggedExcept.lift (e.lastLiteral b.term bound)]]
  | b :: next :: rest, bound => do
    let restLower := Extended.sum ((next :: rest).map (·.lower))
    let restUpper := Extended.sum ((next :: rest).map (·.upper))
    let w ← LoggedExcept.lift (e.visit overrides b.term restLower restUpper bound)
    LoggedExcept.note (.visiting b.term.var b.term.direction w.start w.pruned)
    walk b.term w.domain restLower bound (fun v contribution => do
      let (l, residual) ← LoggedExcept.lift (e.branch b.term bound v contribution)
      return (← e.sumClauses overrides (next :: rest) residual).map (l :: ·)) w.start

/-- Whether the constraint is to be reported as one that never holds. -/
def reportsInfeasible (e : Encoder) (c : LinearConstraint) (maximum : Extended) : Bool :=
  e.options.detectInfeasible && c.reification.isNone && decide (maximum < .fin c.bound)

/-- The encoding of a constraint, with the values of some variables visited over other domains. The
literal of a reification is added to every clause. -/
def encodeOver (e : Encoder) (overrides : Overrides) (c : LinearConstraint) :
    LoggedExcept EncodeError Encoding := do
  let terms ← LoggedExcept.lift (c.terms.mapM e.bounded)
  let maximum := Extended.sum (terms.map (·.upper))
  if e.reportsInfeasible c maximum then do
    LoggedExcept.note (.infeasible c maximum)
    return .infeasible
  else do
    let clauses ← e.sumClauses overrides terms c.bound
    match c.reification with
    | some r => return .clauses (clauses.map (· ++ [.bool r.lit]))
    | none => return .clauses clauses

/-- The encoding of a constraint. -/
def encode (e : Encoder) (c : LinearConstraint) : LoggedExcept EncodeError Encoding :=
  e.encodeOver (fun _ => none) c

/-- The encodings of a list of constraints. -/
def encodeEach (e : Encoder) (cs : List LinearConstraint) :
    LoggedExcept EncodeError (List Encoding) := do
  let all ← cs.mapM e.encode
  LoggedExcept.note (.encoded all.length (all.flatMap fun t => t.clauses?.getD []).length)
  return all

/-- Adds the clauses of a constraint to those collected so far. The answer tells whether the
constraint can hold; if not, nothing is added. -/
def collect (e : Encoder) (collected : List Clause) (c : LinearConstraint) :
    LoggedExcept EncodeError (Bool × List Clause) := do
  match ← e.encode c with
  | .clauses l => return (true, collected ++ l)
  | .infeasible => return (false, collected)

end Encoder

end ThresholdEncoding
