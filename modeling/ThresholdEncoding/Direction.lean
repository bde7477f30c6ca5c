/-!
# Directions

The two ways to run through integers, and the two ways a monotone function can go.
-/

namespace ThresholdEncoding

/-- Upwards or downwards. -/
inductive Direction where
  /-- From small to large. -/
  | ascending
  /-- From large to small. -/
  | descending
  deriving DecidableEq, Repr, Inhabited

namespace Direction

instance : ToString Direction where
  toString
    | ascending => "ascending"
    | descending => "descending"

/-- The opposite direction. -/
def reverse : Direction → Direction
  | ascending => descending
  | descending => ascending

/-- The direction in which a step of the given nonzero width goes. -/
def ofStep (n : Int) : Direction := if 0 < n then ascending else descending

@[simp] theorem reverse_reverse (d : Direction) : d.reverse.reverse = d := by cases d <;> rfl

end Direction

end ThresholdEncoding
