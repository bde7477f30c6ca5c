import ThresholdEncoding.Domain.Shape

/-!
# Domains

The values an integer variable can take: a `Shape` of which every member is multiplied by a nonzero
`multiplier`. A negative multiplier turns the order around, so the values of a domain are still seen
from small to large or from large to small as asked.

* `Domain.mem_iff`: the values are the multiples of the members of the shape.
* `Domain.at?`: the value at a position counted from either end.
* `Domain.valuesFrom`: all values from a position on, in either direction.
-/

namespace ThresholdEncoding

/-- The values of an integer variable. -/
structure Domain where
  /-- The set of values before they are multiplied. -/
  shape : Shape
  /-- The factor of every value. -/
  multiplier : Int := 1
  deriving DecidableEq, Repr

namespace Domain

/-- A value is a multiple of a member of the shape. -/
protected def Mem (d : Domain) (v : Int) : Prop := ∃ r ∈ d.shape, v = d.multiplier * r

instance : Membership Int Domain := ⟨Domain.Mem⟩

theorem mem_iff {d : Domain} {v : Int} : v ∈ d ↔ ∃ r ∈ d.shape, v = d.multiplier * r := Iff.rfl

/-! ### Constructors -/

/-- The integers between two ends, which may be infinite. -/
def interval (lo hi : Extended) : Domain := { shape := .interval lo hi }

/-- All integers. -/
def unbounded : Domain := interval .negInf .posInf

/-- The integers between two ends, and `0`. -/
def intervalWithZero (lo hi : Extended) : Domain := { shape := .intervalWithZero lo hi }

/-- Values in any order, repeated or not. -/
def ofList (l : List Int) : Domain := { shape := .listed l.mergeSort.eraseReps }

/-- Increasing values; an interval if they have no gaps. -/
def ofIncreasing (l : List Int) : Domain :=
  match l.head?, l.getLast? with
  | some first, some last =>
    if (last - first).natAbs < l.length then interval (.fin first) (.fin last) else ofList l
  | _, _ => ofList l

/-- The values of a function at the indices from `lo` to `hi`. The function has to be strictly
monotone there, and its values at the finite ends have to fit. -/
def image (f : MonotoneFn) (lo : Int) (hi : Extended) : Except DomainError Domain :=
  if hi = .negInf then .error (.badArguments .upperIndexNegInf)
  else if hi < .fin lo then .error (.empty (.fin lo) hi)
  else if f.direction? lo hi = none then .error (.notMonotone f)
  else if f.value? lo = none ∨ hi.finite?.any fun hi => f.value? hi = none then .error .overflow
  else .ok { shape := .image f lo hi }

/-! ### Multipliers -/

/-- The same shape under another multiplier, under which the finite ends have to fit. All values lie
between the ends, so then every value fits. -/
def setMultiplier (d : Domain) (m : Int) : Except DomainError Domain :=
  if m = 0 then .error .zeroMultiplier
  else if d.shape.lower.scale? m = none ∨ d.shape.upper.scale? m = none then .error .overflow
  else .ok { d with multiplier := m }

/-- The domain of `w * x` for a variable `x` of this domain. -/
def scale (d : Domain) (w : Int) : Except DomainError Domain :=
  match Word.check? (d.multiplier * w) with
  | some m => d.setMultiplier m
  | none => .error .overflow

/-! ### Bounds and size -/

/-- The direction in which the shape is run through when its multiples are run through in `dir`. -/
def shapeDirection (d : Domain) (dir : Direction) : Direction :=
  if 0 < d.multiplier then dir else dir.reverse

/-- The lower bound. -/
def lower (d : Domain) : Extended :=
  (if 0 < d.multiplier then d.shape.lower else d.shape.upper).scale d.multiplier

/-- The upper bound. -/
def upper (d : Domain) : Extended :=
  (if 0 < d.multiplier then d.shape.upper else d.shape.lower).scale d.multiplier

/-- The number of values, if there are finitely many and positions can count them. -/
def size? (d : Domain) : Option Nat := d.shape.size?

/-- Whether the domain is known to have no values. -/
def isEmpty (d : Domain) : Bool := d.size? = some 0

/-- Whether a bound is infinite. -/
def isOpen (d : Domain) : Bool := !d.lower.isFinite || !d.upper.isFinite

/-- Fails if the domain has no values. -/
def requireValues (d : Domain) : Except DomainError Unit :=
  if d.shape.hasCrossingEnds || d.isEmpty then .error (.empty d.lower d.upper) else .ok ()

/-- Whether the shape is an interval. -/
def isInterval (d : Domain) : Bool :=
  match d.shape with
  | .interval _ _ => true
  | _ => false

/-- Whether the values are an interval of neighbouring integers by their form. A multiplier that is the
least number has no absolute value: a checked build panics on it, elsewhere it wraps and is not `1`
either. -/
def isUnitInterval (d : Domain) : Bool := d.isInterval && d.multiplier.natAbs = 1

/-- The distance of neighbouring values, if the form alone makes it the same everywhere and it
fits. -/
def step? (d : Domain) : Option Int :=
  d.shape.step?.bind fun s => (Word.check? (s * d.multiplier)).bind fun p => Word.check? p.natAbs

/-! ### Values by position -/

/-- The value `k` places from the end where the direction starts. Where `panicsAt` holds, `none` stands
for no answer. -/
def at? (d : Domain) (dir : Direction) (k : Nat) : Option Int :=
  (d.shape.at? (d.shapeDirection dir) k).bind fun v => Word.check? (v * d.multiplier)

/-- Whether the look-up panics instead of being answered. -/
def panicsAt (d : Domain) (dir : Direction) (k : Nat) : Bool :=
  d.shape.panicsAt (d.shapeDirection dir) k

/-- The `k`-th smallest value. -/
def ascending? (d : Domain) (k : Nat) : Option Int := d.at? .ascending k

/-- The `k`-th largest value. -/
def descending? (d : Domain) (k : Nat) : Option Int := d.at? .descending k

/-- Positions that hold a value end with those of the shape. -/
theorem lt_reach_of_at? {d : Domain} {dir : Direction} {k : Nat} {v : Int}
    (h : d.at? dir k = some v) : k < d.shape.reach := by
  obtain ⟨_, h, -⟩ := Option.bind_eq_some_iff.mp h
  exact Shape.lt_reach_of_at? h

/-- The values from position `k` on, up to the first position without a value. -/
def valuesFrom (d : Domain) (dir : Direction) (k : Nat) : List Int :=
  match h : d.at? dir k with
  | some v => v :: d.valuesFrom dir (k + 1)
  | none => []
termination_by d.shape.reach - k
decreasing_by have := lt_reach_of_at? h; omega

/-- The bound where the direction starts. -/
def startBound (d : Domain) : Direction → Extended
  | .ascending => d.lower
  | .descending => d.upper

/-- All values in a direction that does not start at an open end. -/
def values (d : Domain) (dir : Direction) (start : Nat) : Except DomainError (List Int) :=
  if (d.startBound dir).isFinite then .ok (d.valuesFrom dir start) else .error .openBound

end Domain

end ThresholdEncoding
