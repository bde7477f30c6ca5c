import ThresholdEncoding.Domain.Basic

/-!
# Running through the values of a domain

A `Cursor` is a place in the sequence of values of a domain, seen in one direction. It advances only
when it produces a value. `Cursor.remaining` bounds the number of values that are still to come.

A call (`Cursor.next`) has three outcomes: a value, the end of the values, or a panic where the look-up
does.
-/

namespace ThresholdEncoding

/-- What comes of asking for the next value. -/
inductive Answer where
  /-- A value. -/
  | value (v : Int)
  /-- There are no more values. -/
  | finished
  /-- The run panics. -/
  | panic
  deriving DecidableEq, Repr

/-- A place in the values of a domain. -/
structure Cursor where
  /-- The domain. -/
  domain : Domain
  /-- The direction in which the values come. -/
  direction : Direction
  /-- The position of the next value. -/
  position : Nat
  deriving DecidableEq, Repr

namespace Domain

/-- A cursor that skips the first `start` values. The direction must not start at an open end. -/
def cursor (d : Domain) (dir : Direction) (start : Nat) : Except DomainError Cursor :=
  if (d.startBound dir).isFinite then .ok ⟨d, dir, start⟩ else .error .openBound

end Domain

namespace Cursor

/-- The next value, if there is one. -/
def value? (c : Cursor) : Option Int := c.domain.at? c.direction c.position

/-- The outcome of a call for the next value. -/
def next (c : Cursor) : Answer :=
  match c.value? with
  | some v => .value v
  | none => if c.domain.panicsAt c.direction c.position then .panic else .finished

/-- The cursor after its next value; it stays where it is if there is none. -/
def advance (c : Cursor) : Cursor :=
  if c.value?.isSome then { c with position := c.position + 1 } else c

/-- The cursor after `n` attempts to advance. -/
def advances (c : Cursor) : Nat → Cursor
  | 0 => c
  | n + 1 => c.advance.advances n

/-- The first values to come, at most `n`. -/
def take (c : Cursor) : Nat → List Int
  | 0 => []
  | n + 1 =>
    match c.value? with
    | some v => v :: c.advance.take n
    | none => []

/-- All values to come. -/
def toList (c : Cursor) : List Int := c.domain.valuesFrom c.direction c.position

/-- A lower and, if known, an upper bound on the number of values to come. -/
def remaining (c : Cursor) : Nat × Option Nat :=
  match c.domain.size? with
  | some n => (n - c.position, some (n - c.position))
  | none => (Word.positionLimit - 1, none)

end Cursor

end ThresholdEncoding
