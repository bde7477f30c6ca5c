import ThresholdEncoding.Word

/-!
# Searching for a boundary

A predicate on `0, 1, 2, …` that holds up to some index and fails from there on has a *boundary*:
the first index at which it fails. Among finitely many indices it is found by halving an interval;
without a limit, by doubling an end until the predicate fails there, and then halving.

The outcome of a search also lists the indices at which the predicate was asked, and the largest end
the search has handled, so that what a search costs can be stated.
-/

namespace ThresholdEncoding.BoundarySearch

/-- What a search finds and what it does for it. -/
structure Outcome where
  /-- The first index at which the predicate fails. -/
  boundary : Nat
  /-- The indices at which the predicate was asked, in order. -/
  probes : List Nat
  /-- The largest end of an interval of indices that was formed. -/
  reach : Nat
  deriving Repr

/-- Finds the boundary between `lo` and `hi`, both included, by halving. -/
def bisect (p : Nat → Bool) (lo hi : Nat) : Outcome :=
  if lo < hi then
    let mid := lo + (hi - lo) / 2
    let rest := if p mid then bisect p (mid + 1) hi else bisect p lo mid
    { rest with probes := mid :: rest.probes, reach := max hi rest.reach }
  else ⟨lo, [], hi⟩
termination_by hi - lo

/-- Doubles the end `hi` until the predicate fails just below it, then halves what the last doubling
added. That the doubling stops where positions end is a convention of the definition. As an operation
on words, doubling `2 ^ 63` panics in a checked build and else wraps to `0`, after which the predicate
is asked at the last position: if it fails there, all positions are halved and the same boundary is
found; if it holds there, the search does not end. -/
def gallop (p : Nat → Bool) (hi : Nat) : Outcome :=
  if 0 < hi ∧ hi < Word.positionLimit then
    let rest := if p (hi - 1) then gallop p (2 * hi) else bisect p (hi / 2) (hi - 1)
    { rest with probes := (hi - 1) :: rest.probes, reach := max hi rest.reach }
  else bisect p (hi / 2) (hi - 1)
termination_by Word.positionLimit - hi

/-- Searches the first `size` indices, or all of them if there is no size. -/
def search (size? : Option Nat) (p : Nat → Bool) : Outcome :=
  match size? with
  | some size => bisect p 0 size
  | none => gallop p 1

/-- The first index at which the predicate fails. -/
def boundary (size? : Option Nat) (p : Nat → Bool) : Nat := (search size? p).boundary

end ThresholdEncoding.BoundarySearch
