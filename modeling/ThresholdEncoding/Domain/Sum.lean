import ThresholdEncoding.Domain.Basic
import ThresholdEncoding.Log

/-!
# Domains of sums

`Domain.add` is the domain of `x + y` for variables `x`, `y` of two domains. It is exact for two
unit intervals and for small domains. Otherwise it is the interval between the sums of the bounds,
which is reported as an approximation unless a bound is open.
-/

namespace ThresholdEncoding.Domain

/-- The number of pairs of values up to which sums are listed. -/
def pairLimit : Nat := 10000

/-- The interval between the sums of the bounds. -/
def addBounds (a b : Domain) : Except DomainError Domain :=
  match a.lower.add? b.lower, a.upper.add? b.upper with
  | some lo, some hi => .ok (interval lo hi)
  | _, _ => .error .overflow

/-- The number of pairs of a value of each domain, at most what positions can count. -/
def pairs (a b : Domain) : Nat :=
  match a.size?, b.size? with
  | some m, some n => min (m * n) (Word.positionLimit - 1)
  | _, _ => Word.positionLimit - 1

/-- The sums of all pairs of values, from small to large and without repetitions. -/
def sums (a b : Domain) : List Int :=
  ((a.valuesFrom .ascending 0).flatMap fun x =>
    (b.valuesFrom .ascending 0).map (x + ·)).mergeSort.eraseReps

/-- The bounds of the sum decide it: a domain is open, or both are unit intervals. -/
def boundsSuffice (a b : Domain) : Bool :=
  a.isOpen || b.isOpen || (a.isUnitInterval && b.isUnitInterval)

/-- A domain with an open bound that is no interval. -/
def isOpenOther (d : Domain) : Bool := d.isOpen && !d.isInterval

/-- The domain of the sum of a value of each domain. -/
def add (a b : Domain) : Except DomainError Domain :=
  if a.isOpenOther || b.isOpenOther then .error .unsupportedMerge
  else do
    let hull ← a.addBounds b
    if a.boundsSuffice b || pairLimit < a.pairs b then return hull
    return ofIncreasing (a.sums b)

/-- Whether `add` falls back to an interval because there are too many pairs of values. -/
def addApproximates (a b : Domain) : Bool :=
  !a.boundsSuffice b && pairLimit < a.pairs b && (a.add b).isOk

/-- The domain of the sum, with a report if it is approximated. -/
def addLogged (a b : Domain) : LoggedExcept DomainError Domain := do
  if a.addApproximates b then LoggedExcept.note (.approximated (a.pairs b))
  LoggedExcept.lift (a.add b)

@[simp] theorem value_addLogged (a b : Domain) : (a.addLogged b).value = a.add b := by
  unfold addLogged
  split
  · simp only [LoggedExcept.value_bind, LoggedExcept.value_note, LoggedExcept.value_lift]
    rfl
  · simp

end ThresholdEncoding.Domain
