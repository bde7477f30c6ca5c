import ThresholdEncoding.Direction
import ThresholdEncoding.Extended
import ThresholdEncoding.Linear

/-!
# Logged computations

What the library reports while it works is data: a list of `LogEvent`s that comes with the result. A
computation of type `Logged α` has a `value` and a `log`; one of type `LoggedExcept ε α` may fail,
and then keeps the events up to the failure.

* `Logged.value_bind`, `LoggedExcept.value_bind`: values can be computed without looking at logs.
-/

namespace ThresholdEncoding

/-- How important an event is, from the most important to the least. -/
inductive LogLevel where
  /-- Something is less exact than it could be. -/
  | warn
  /-- A summary. -/
  | info
  /-- A decision. -/
  | debug
  /-- A single step. -/
  | trace
  deriving DecidableEq, Repr

namespace LogLevel

instance : ToString LogLevel where
  toString
    | warn => "WARN"
    | info => "INFO"
    | debug => "DEBUG"
    | trace => "TRACE"

/-- The place in the order of importance. -/
def rank : LogLevel → Nat
  | warn => 0
  | info => 1
  | debug => 2
  | trace => 3

end LogLevel

/-- Something that is reported. -/
inductive LogEvent where
  /-- The domain of a sum is approximated by an interval. -/
  | approximated (pairs : Nat)
  /-- A line of a summary. -/
  | summary (line : String)
  /-- A constraint cannot be satisfied. -/
  | infeasible (c : LinearConstraint) (maximum : Extended)
  /-- A list of constraints has been encoded. -/
  | encoded (constraints clauses : Nat)
  /-- A variable is introduced for the sum of two terms. -/
  | introducedSum (sum : IntVar) (second last : Term)
  /-- A variable is introduced as a lower estimate of a term. -/
  | introducedFirst (first : IntVar) (term : Term)
  /-- A variable is introduced as a lower estimate of a longer sum. -/
  | introducedNext (next prev : IntVar) (term : Term)
  /-- The values of a variable are about to be visited. -/
  | visiting (x : IntVar) (dir : Direction) (start : Nat) (pruned : Bool)
  /-- A value of a variable satisfies the constraint whatever the other variables are. -/
  | settled (x : IntVar) (value : Int)
  deriving DecidableEq, Repr

namespace LogEvent

/-- The importance of an event. -/
def level : LogEvent → LogLevel
  | approximated _ => .warn
  | summary _ => .info
  | infeasible _ _ | encoded _ _ | introducedSum _ _ _ | introducedFirst _ _
  | introducedNext _ _ _ => .debug
  | visiting _ _ _ _ | settled _ _ => .trace

/-- The text of an event. -/
def message : LogEvent → String
  | approximated n =>
    "approximating merge of domains with " ++ toString n ++ " value combinations by an interval"
  | summary line => line
  | infeasible c m => toString c ++ " is infeasible, maximum " ++ toString m
  | encoded n m =>
    "encoded " ++ toString n ++ " constraints into " ++ toString m ++ " clauses"
  | introducedSum s t u =>
    "introducing " ++ toString s ++ " = " ++ toString t ++ " + " ++ toString u
  | introducedFirst x t => "introducing " ++ toString x ++ " <= " ++ toString t
  | introducedNext x y t =>
    "introducing " ++ toString x ++ " <= " ++ toString y ++ " + " ++ toString t
  | visiting x dir k pruned =>
    "iterating " ++ toString dir ++ " values of " ++ toString x ++ " from index " ++ toString k ++
      " (pruning " ++ toString pruned ++ ")"
  | settled x v =>
    toString x ++ " = " ++ toString v ++ " satisfies the constraint for any rest, stopping"

/-- The event as a line of a log. -/
def line (e : LogEvent) : String := toString e.level ++ " " ++ e.message

end LogEvent

/-- The lines of the events that are at least as important as the given level. -/
def logLines (least : LogLevel) (log : List LogEvent) : List String :=
  (log.filter fun e => e.level.rank ≤ least.rank).map (·.line)

/-- A value together with the events on the way to it. -/
structure Logged (α : Type) where
  /-- The events, in order. -/
  log : List LogEvent
  /-- The value. -/
  value : α
  deriving Repr

namespace Logged

instance : Monad Logged where
  pure a := ⟨[], a⟩
  bind x f := ⟨x.log ++ (f x.value).log, (f x.value).value⟩

instance : LawfulMonad Logged := LawfulMonad.mk' Logged
  (by intro α x; simp [Functor.map])
  (by intro α β a f; simp [pure, bind])
  (by intro α β γ x f g; simp [bind])

variable {α β : Type}

@[simp] theorem value_pure (a : α) : (pure a : Logged α).value = a := rfl

@[simp] theorem log_pure (a : α) : (pure a : Logged α).log = [] := rfl

@[simp] theorem value_bind (x : Logged α) (f : α → Logged β) :
    (x >>= f).value = (f x.value).value := rfl

@[simp] theorem log_bind (x : Logged α) (f : α → Logged β) :
    (x >>= f).log = x.log ++ (f x.value).log := rfl

end Logged

/-- A computation that is logged and may fail. -/
abbrev LoggedExcept (ε : Type) := ExceptT ε Logged

namespace LoggedExcept

variable {ε ε' α β : Type}

/-- Reports an event. -/
def note (e : LogEvent) : LoggedExcept ε Unit := ExceptT.mk ⟨[e], .ok ()⟩

/-- A result without events. -/
def lift (x : Except ε α) : LoggedExcept ε α := ExceptT.mk ⟨[], x⟩

/-- The result, without the events. -/
def value (x : LoggedExcept ε α) : Except ε α := (ExceptT.run x).value

/-- The events. -/
def log (x : LoggedExcept ε α) : List LogEvent := (ExceptT.run x).log

/-- The computation with its failures renamed. -/
def mapError (f : ε → ε') (x : LoggedExcept ε α) : LoggedExcept ε' α :=
  ExceptT.mk ⟨x.log, x.value.mapError f⟩

@[simp] theorem value_pure (a : α) : (pure a : LoggedExcept ε α).value = .ok a := rfl

@[simp] theorem value_note (e : LogEvent) : (note e : LoggedExcept ε Unit).value = .ok () := rfl

@[simp] theorem value_lift (x : Except ε α) : (lift x).value = x := rfl

@[simp] theorem value_throw (e : ε) : (throw e : LoggedExcept ε α).value = .error e := rfl

@[simp] theorem value_mapError (f : ε → ε') (x : LoggedExcept ε α) :
    (x.mapError f).value = x.value.mapError f := rfl

/-- **Values can be computed without looking at logs.** -/
@[simp] theorem value_bind (x : LoggedExcept ε α) (f : α → LoggedExcept ε β) :
    (x >>= f).value = x.value >>= fun a => (f a).value := by
  show (ExceptT.bindCont f (ExceptT.run x).value).value = _
  cases h : (ExceptT.run x).value with
  | ok a => simp only [value, h]; rfl
  | error e => simp only [value, h]; rfl

end LoggedExcept

end ThresholdEncoding
