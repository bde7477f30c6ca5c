import ThresholdEncoding.Domain.Error

/-!
# Shapes of value sets

A `Shape` is a set of integers in one of four forms: an interval that may be open, such an interval
together with `0`, a list of values, or the image of an index range under a monotone function. The
set is seen as an increasing sequence that can be addressed from either end.

* `Shape.mem_iff_*`: the members of each form.
* `Shape.fromLow?`, `Shape.fromHigh?`: the `k`-th smallest and the `k`-th largest member.
* `Shape.panicsAt`: the one look-up that is not answered.
* `Shape.lt_reach_of_at?`: positions at or beyond `Shape.reach` hold no member.
-/

namespace ThresholdEncoding

/-- A set of integers. -/
inductive Shape where
  /-- The integers from `lo` to `hi`. -/
  | interval (lo hi : Extended)
  /-- The integers from `lo` to `hi`, and `0`. -/
  | intervalWithZero (lo hi : Extended)
  /-- The listed values, which are meant to be increasing. -/
  | listed (values : List Int)
  /-- The values of `f` at the indices from `lo` to `hi`, on which `f` is meant to be monotone. -/
  | image (f : MonotoneFn) (lo : Int) (hi : Extended)
  deriving DecidableEq, Repr

namespace Shape

/-- Membership in the set that the shape describes. -/
protected def Mem : Shape → Int → Prop
  | interval lo hi, v => lo ≤ .fin v ∧ .fin v ≤ hi
  | intervalWithZero lo hi, v => v = 0 ∨ lo ≤ .fin v ∧ .fin v ≤ hi
  | listed l, v => v ∈ l
  | image f lo hi, v => ∃ i : Int, lo ≤ i ∧ .fin i ≤ hi ∧ f.value i = v

instance : Membership Int Shape := ⟨Shape.Mem⟩

/-- The function of an image rises from `lo` to `hi`. -/
def rises (f : MonotoneFn) (lo : Int) (hi : Extended) : Bool := f.direction? lo hi = some .ascending

/-- Whether `0` lies below the interval that starts at `lo`. -/
def zeroPrecedes (lo : Extended) : Bool := .fin 0 < lo

/-- Whether `0` lies above the interval that ends at `hi`. -/
def zeroFollows (hi : Extended) : Bool := hi < .fin 0

/-- The value of `f` at the end of an index range; the given infinity if that end is open or the
value does not fit. -/
def endValue (f : MonotoneFn) (otherwise : Extended) : Extended → Extended
  | .fin i => ((f.value? i).map .fin).getD otherwise
  | _ => otherwise

/-- The lower end of the set. -/
def lower : Shape → Extended
  | interval lo _ => lo
  | intervalWithZero lo _ => if zeroPrecedes lo then .fin 0 else lo
  | listed l => (l.head?.map .fin).getD .posInf
  | image f lo hi => endValue f .negInf (if rises f lo hi then .fin lo else hi)

/-- The upper end of the set. -/
def upper : Shape → Extended
  | interval _ hi => hi
  | intervalWithZero _ hi => if zeroFollows hi then .fin 0 else hi
  | listed l => (l.getLast?.map .fin).getD .negInf
  | image f lo hi => endValue f .posInf (if rises f lo hi then hi else .fin lo)

/-- The number of integers between two ends, if both are finite and positions can count them. -/
def endsSpan? (lo hi : Extended) : Option Nat :=
  lo.finite?.bind fun lo => hi.finite?.bind fun hi => Word.span? lo hi

/-- One more than a count, if positions can still count it. -/
def countOneMore? (n : Nat) : Option Nat :=
  if n + 1 < Word.positionLimit then some (n + 1) else none

/-- The number of members, if there are finitely many and positions can count them. -/
def size? : Shape → Option Nat
  | interval lo hi => endsSpan? lo hi
  | intervalWithZero lo hi =>
    (endsSpan? lo hi).bind fun n =>
      if zeroPrecedes lo || zeroFollows hi then countOneMore? n else some n
  | listed l => some l.length
  | image _ lo hi => endsSpan? (.fin lo) hi

/-- The value itself if it is at most `hi`. -/
def atMost? (hi : Extended) (v : Int) : Option Int := if .fin v ≤ hi then some v else none

/-- The value itself if it is at least `lo`. -/
def atLeast? (lo : Extended) (v : Int) : Option Int := if lo ≤ .fin v then some v else none

/-- The `k`-th smallest integer of an interval. -/
def intervalFromLow? (lo hi : Extended) (k : Nat) : Option Int :=
  lo.finite?.bind fun a => (Word.advance? a k).bind (atMost? hi)

/-- The `k`-th largest integer of an interval. -/
def intervalFromHigh? (lo hi : Extended) (k : Nat) : Option Int :=
  hi.finite?.bind fun b => (Word.retreat? b k).bind (atLeast? lo)

/-- The `k`-th smallest member. Next to an interval, `0` comes first if it lies below, and follows
the interval if it lies above. -/
def fromLow? : Shape → Nat → Option Int
  | interval lo hi, k => intervalFromLow? lo hi k
  | intervalWithZero lo hi, k =>
    lo.finite?.bind fun a =>
      if zeroPrecedes lo then
        match k with
        | 0 => some 0
        | k + 1 => if Word.Fits (k + 1 : Nat) then intervalFromLow? lo hi k else none
      else (Word.advance? a k).bind fun v =>
        if .fin v ≤ hi then some v
        else if zeroFollows hi ∧ hi + .fin 1 = .fin v then some 0 else none
  | listed l, k => l[k]?
  | image f lo hi, k =>
    if rises f lo hi then (intervalFromLow? (.fin lo) hi k).bind f.value?
    else (intervalFromHigh? (.fin lo) hi k).bind f.value?

/-- The `k`-th largest member. Where `panicsAt` holds, `none` stands for no answer. -/
def fromHigh? : Shape → Nat → Option Int
  | interval lo hi, k => intervalFromHigh? lo hi k
  | intervalWithZero lo hi, k =>
    hi.finite?.bind fun b =>
      if zeroFollows hi then
        match k with
        | 0 => some 0
        | k + 1 => if Word.Fits (k + 1 : Nat) then intervalFromHigh? lo hi k else none
      else (Word.retreat? b k).bind fun v =>
        if lo ≤ .fin v then some v
        else if zeroPrecedes lo ∧ lo + .fin (-1) = .fin v then some 0 else none
  | listed l, k => if k < l.length then l[l.length - (k + 1)]? else none
  | image f lo hi, k =>
    if rises f lo hi then (intervalFromHigh? (.fin lo) hi k).bind f.value?
    else (intervalFromLow? (.fin lo) hi k).bind f.value?

/-- The member `k` places from the end where the direction starts. Where `panicsAt` holds, `none`
stands for no answer. -/
def at? (s : Shape) : Direction → Nat → Option Int
  | .ascending, k => s.fromLow? k
  | .descending, k => s.fromHigh? k

/-- Whether the look-up panics instead of being answered. From its upper end a list is addressed by the
position after the one asked for, and after the last position there is none; every list ends before
it. -/
def panicsAt : Shape → Direction → Nat → Bool
  | listed l, .descending, k => l.length ≤ k ∧ Word.positionLimit ≤ k + 1
  | _, _, _ => false

/-- The distance of neighbours, if the form alone makes it the same everywhere. The absolute value of
a slope is not checked: that of the least number wraps, where a checked build panics. It is no distance
then, and `Domain.step?` refuses it under every multiplier. -/
def step? : Shape → Option Int
  | interval _ _ => some 1
  | intervalWithZero lo hi => if zeroPrecedes lo || zeroFollows hi then none else some 1
  | listed _ => none
  | image (.affine s _) _ _ => some (Word.wrap s.natAbs)
  | image _ _ _ => none

/-- Whether the ends of an interval leave no room for a value. -/
def endsCross (lo hi : Extended) : Bool := lo = .posInf || hi = .negInf || hi < lo

/-- Whether the ends of the shape are those of an interval without values. -/
def hasCrossingEnds : Shape → Bool
  | interval lo hi => endsCross lo hi
  | intervalWithZero lo hi => endsCross lo hi
  | _ => false

/-- A bound on the positions that hold a member. -/
def reach : Shape → Nat
  | listed l => l.length
  | _ => 9223372036854775808

/-! ### Members of each form -/

variable {v : Int} {lo hi : Extended}

theorem mem_interval_iff : v ∈ interval lo hi ↔ lo ≤ .fin v ∧ .fin v ≤ hi := Iff.rfl

theorem mem_intervalWithZero_iff :
    v ∈ intervalWithZero lo hi ↔ v = 0 ∨ lo ≤ .fin v ∧ .fin v ≤ hi := Iff.rfl

theorem mem_listed_iff {l : List Int} : v ∈ listed l ↔ v ∈ l := Iff.rfl

theorem mem_image_iff {f : MonotoneFn} {lo : Int} :
    v ∈ image f lo hi ↔ ∃ i : Int, lo ≤ i ∧ .fin i ≤ hi ∧ f.value i = v := Iff.rfl

/-! ### Positions -/

theorem lt_of_intervalFromLow? {k : Nat} (h : intervalFromLow? lo hi k = some v) :
    k < 9223372036854775808 := by
  simp only [intervalFromLow?, Option.bind_eq_some_iff, Word.advance?_eq_some_iff] at h
  obtain ⟨_, -, _, ⟨hk, -⟩, -⟩ := h
  exact Word.lt_of_fits_natCast hk

theorem lt_of_intervalFromHigh? {k : Nat} (h : intervalFromHigh? lo hi k = some v) :
    k < 9223372036854775808 := by
  simp only [intervalFromHigh?, Option.bind_eq_some_iff, Word.retreat?_eq_some_iff] at h
  obtain ⟨_, -, _, ⟨hk, -⟩, -⟩ := h
  exact Word.lt_of_fits_natCast hk

theorem lt_reach_of_fromLow? {s : Shape} {k : Nat} (h : s.fromLow? k = some v) : k < s.reach := by
  cases s with
  | interval lo hi => exact lt_of_intervalFromLow? h
  | listed l => exact (List.getElem?_eq_some_iff.mp h).1
  | image f lo hi =>
    simp only [fromLow?] at h
    split at h <;> obtain ⟨_, h, -⟩ := Option.bind_eq_some_iff.mp h
    · exact lt_of_intervalFromLow? h
    · exact lt_of_intervalFromHigh? h
  | intervalWithZero lo hi =>
    simp only [fromLow?] at h
    obtain ⟨_, -, h⟩ := Option.bind_eq_some_iff.mp h
    split at h
    · cases k with
      | zero => exact Nat.pos_of_ne_zero (by simp only [reach]; omega)
      | succ k =>
        simp only at h
        split at h
        · next hk => exact Word.lt_of_fits_natCast hk
        · simp at h
    · obtain ⟨_, h, -⟩ := Option.bind_eq_some_iff.mp h
      exact Word.lt_of_fits_natCast (Word.advance?_eq_some_iff.mp h).1

theorem lt_reach_of_fromHigh? {s : Shape} {k : Nat} (h : s.fromHigh? k = some v) :
    k < s.reach := by
  cases s with
  | interval lo hi => exact lt_of_intervalFromHigh? h
  | listed l =>
    simp only [fromHigh?] at h
    split at h
    · assumption
    · simp at h
  | image f lo hi =>
    simp only [fromHigh?] at h
    split at h <;> obtain ⟨_, h, -⟩ := Option.bind_eq_some_iff.mp h
    · exact lt_of_intervalFromHigh? h
    · exact lt_of_intervalFromLow? h
  | intervalWithZero lo hi =>
    simp only [fromHigh?] at h
    obtain ⟨_, -, h⟩ := Option.bind_eq_some_iff.mp h
    split at h
    · cases k with
      | zero => exact Nat.pos_of_ne_zero (by simp only [reach]; omega)
      | succ k =>
        simp only at h
        split at h
        · next hk => exact Word.lt_of_fits_natCast hk
        · simp at h
    · obtain ⟨_, h, -⟩ := Option.bind_eq_some_iff.mp h
      exact Word.lt_of_fits_natCast (Word.retreat?_eq_some_iff.mp h).1

/-- **Positions end.** A position that holds a member lies below the reach of the shape. -/
theorem lt_reach_of_at? {s : Shape} {d : Direction} {k : Nat} (h : s.at? d k = some v) :
    k < s.reach := by
  cases d with
  | ascending => exact lt_reach_of_fromLow? h
  | descending => exact lt_reach_of_fromHigh? h

end Shape

end ThresholdEncoding
