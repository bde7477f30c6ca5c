import ThresholdEncoding.Domain.Cursor
import ThresholdEncoding.Proofs.Domain.Position

/-!
# What a cursor still produces

A cursor goes through `toList`: a call gives the head and leaves the tail. The number of values to
come is announced from the size of the domain alone, but a cursor also stops where positions cannot
be looked up any more. So the announcement is exact only where positions count the values and reach
all of them.

A call behind the last value finds nothing, unless it asks a list for its last position from the upper
end: then the run panics. A cursor gets there only by starting there.

* `Cursor.value?_advances`: the values of the calls, one after the other.
* `Cursor.next_advances`: the outcome of every call.
* `Domain.Valid.length_valuesFrom`: how many values follow a position.
* `Cursor.remaining_bounds_iff`: the exact condition under which no more values are announced than
  come.
* `Cursor.remaining_overstates`: cursors that announce values and have none.
-/

namespace ThresholdEncoding

/-! ### Counting the values from a position on -/

namespace Domain

variable {d : Domain} {dir : Direction} {k m n : Nat} {g : Nat → Int}

theorem valuesFrom_of_at? {v : Int} (hat : d.at? dir k = some v) :
    d.valuesFrom dir k = v :: d.valuesFrom dir (k + 1) := by
  rw [valuesFrom]
  split
  · next w hw => rw [Option.some.inj (hw.symm.trans hat)]
  · next hnone => rw [hat] at hnone; cases hnone

theorem valuesFrom_of_at?_eq_none (hat : d.at? dir k = none) : d.valuesFrom dir k = [] := by
  rw [valuesFrom]
  split
  · next w hw => rw [hat] at hw; cases hw
  · rfl

/-- The positions that hold a value count the values. -/
theorem length_valuesFrom_of_isSome_iff (hall : ∀ j, (d.at? dir j).isSome ↔ j < m) (k : Nat) :
    (d.valuesFrom dir k).length = m - k := by
  fun_induction valuesFrom d dir k with
  | case1 k v hv ih =>
    have hk := (hall k).mp (by rw [hv]; rfl)
    rw [List.length_cons, ih]
    omega
  | case2 k hk =>
    have hm : ¬ k < m := fun hlt => by simpa [hk] using (hall k).mpr hlt
    rw [List.length_nil]
    omega

/-- No more values follow than there are positions left. -/
theorem length_valuesFrom_le (d : Domain) (dir : Direction) (k : Nat) :
    (d.valuesFrom dir k).length ≤ d.shape.reach - k := by
  fun_induction valuesFrom d dir k with
  | case1 k v hv ih =>
    have := lt_reach_of_at? hv
    rw [List.length_cons]
    omega
  | case2 k hk => exact Nat.zero_le _

theorem Enumeration.isSome_at?_iff (h : d.Enumeration n g) (dir : Direction) :
    (d.at? dir k).isSome ↔ k < min n d.shape.reach := by
  rw [Option.isSome_iff_exists, lt_min_iff]
  cases dir with
  | ascending =>
    simp only [h.ascending_iff]
    exact ⟨fun ⟨_, h1, h2, _⟩ => ⟨h1, h2⟩, fun ⟨h1, h2⟩ => ⟨_, h1, h2, rfl⟩⟩
  | descending =>
    simp only [h.descending_iff]
    exact ⟨fun ⟨_, h1, h2, _⟩ => ⟨h1, h2⟩, fun ⟨h1, h2⟩ => ⟨_, h1, h2, rfl⟩⟩

/-- **The number of values from a position on**, where positions count them: up to the last value or
the last position that can be looked up. -/
theorem Valid.length_valuesFrom (h : d.Valid) (hsize : d.size? = some m) (dir : Direction) (k : Nat) :
    (d.valuesFrom dir k).length = min m d.shape.reach - k := by
  obtain ⟨n, g, hg⟩ := h.exists_enumeration (h.isOpen_of_size? hsize)
  obtain rfl := hg.size_limit hsize
  exact length_valuesFrom_of_isSome_iff (fun _ => hg.isSome_at?_iff dir) k

/-! ### Look-ups that panic -/

theorem panicsAt_eq_false_of_ne_listed (hs : ∀ l, d.shape ≠ .listed l) : d.panicsAt dir k = false := by
  unfold panicsAt
  cases hshape : d.shape with
  | listed l => exact absurd hshape (hs l)
  | interval lo hi => rfl
  | intervalWithZero lo hi => rfl
  | image f lo hi => rfl

/-- A list without a value at a position has none behind it. -/
theorem Valid.reach_le_of_listed {l : List Int} (h : d.Valid) (hs : d.shape = .listed l)
    (hat : d.at? dir k = none) : d.shape.reach ≤ k := by
  have hsize : d.size? = some l.length := by rw [size?, hs]; rfl
  obtain ⟨n, g, hg⟩ := h.exists_enumeration (h.isOpen_of_size? hsize)
  obtain rfl := hg.size_limit hsize
  have hnot : ¬ k < min l.length d.shape.reach := fun hk => by
    simpa [hat] using (hg.isSome_at?_iff dir).mpr hk
  rw [hs] at hnot ⊢
  simpa [Shape.reach] using hnot

/-- **Behind the values** it is decided by where they end or the cursor has started whether a look-up
panics. -/
theorem Valid.panicsAt_eq_of_at?_eq_none {start : Nat} (h : d.Valid) (hat : d.at? dir k = none)
    (hstart : start ≤ k) (hk : k ≤ max start d.shape.reach) :
    d.panicsAt dir k = d.panicsAt dir (max start d.shape.reach) := by
  by_cases hlisted : ∃ l, d.shape = .listed l
  · obtain ⟨l, hs⟩ := hlisted
    have hreach := h.reach_le_of_listed hs hat
    rw [hk.antisymm (max_le hstart hreach)]
  · have hne : ∀ l, d.shape ≠ .listed l := fun l hs => hlisted ⟨l, hs⟩
    rw [panicsAt_eq_false_of_ne_listed hne, panicsAt_eq_false_of_ne_listed hne]

end Domain

namespace Cursor

open Domain

variable {c : Cursor} {n : Nat}

/-! ### One call -/

theorem toList_of_value? {v : Int} (h : c.value? = some v) : c.toList = v :: c.advance.toList := by
  rw [advance, h]
  exact valuesFrom_of_at? h

theorem toList_of_value?_eq_none (h : c.value? = none) : c.toList = [] :=
  valuesFrom_of_at?_eq_none h

theorem value?_eq_head? (c : Cursor) : c.value? = c.toList.head? := by
  cases h : c.value? with
  | none => rw [toList_of_value?_eq_none h]; rfl
  | some v => rw [toList_of_value? h]; rfl

theorem toList_advance (c : Cursor) : c.advance.toList = c.toList.tail := by
  cases h : c.value? with
  | none =>
    have hstay : c.advance = c := by rw [advance, h]; rfl
    rw [hstay, toList_of_value?_eq_none h]
    rfl
  | some v => rw [toList_of_value? h]; rfl

@[simp] theorem domain_advance (c : Cursor) : c.advance.domain = c.domain := by
  unfold advance
  split_ifs <;> rfl

@[simp] theorem direction_advance (c : Cursor) : c.advance.direction = c.direction := by
  unfold advance
  split_ifs <;> rfl

theorem position_advance (c : Cursor) :
    c.position ≤ c.advance.position ∧
      c.advance.position ≤ max c.position c.domain.shape.reach := by
  unfold advance
  split_ifs with hsome
  · obtain ⟨v, hv⟩ := Option.isSome_iff_exists.mp hsome
    have hlt : c.position < c.domain.shape.reach := lt_reach_of_at? hv
    simp only
    omega
  · exact ⟨le_rfl, le_max_left _ _⟩

/-! ### A run of calls -/

@[simp] theorem domain_advances (c : Cursor) (n : Nat) : (c.advances n).domain = c.domain := by
  induction n generalizing c with
  | zero => rfl
  | succ n ih => rw [advances, ih, domain_advance]

/-- A cursor never goes back, and stays where it is from the last position on. -/
theorem position_advances (c : Cursor) (n : Nat) :
    c.position ≤ (c.advances n).position ∧
      (c.advances n).position ≤ max c.position c.domain.shape.reach := by
  induction n generalizing c with
  | zero => exact ⟨le_rfl, le_max_left _ _⟩
  | succ n ih =>
    obtain ⟨h1, h2⟩ := c.position_advance
    obtain ⟨h3, h4⟩ := ih c.advance
    rw [domain_advance] at h4
    rw [advances]
    omega

theorem toList_advances (c : Cursor) (n : Nat) : (c.advances n).toList = c.toList.drop n := by
  induction n generalizing c with
  | zero => rfl
  | succ n ih => rw [advances, ih, toList_advance, List.drop_tail]

/-- **A call after `n` others** gives the value at place `n`, and nothing behind the last one. -/
theorem value?_advances (c : Cursor) (n : Nat) : (c.advances n).value? = c.toList[n]? := by
  rw [value?_eq_head?, toList_advances, List.head?_drop]

@[simp] theorem direction_advances (c : Cursor) (n : Nat) :
    (c.advances n).direction = c.direction := by
  induction n generalizing c with
  | zero => rfl
  | succ n ih => rw [advances, ih, direction_advance]

/-- **The outcome of the call after `n` others**: the value at place `n`, or the end of the values, or
a panic. -/
theorem next_advances (h : c.domain.Valid) (n : Nat) : (c.advances n).next =
    match c.toList[n]? with
    | some v => .value v
    | none => if c.domain.panicsAt c.direction (max c.position c.domain.shape.reach) then .panic
        else .finished := by
  rw [next, ← value?_advances]
  cases hv : (c.advances n).value? with
  | some v => rfl
  | none =>
    obtain ⟨h1, h2⟩ := c.position_advances n
    rw [value?, domain_advances, direction_advances] at hv
    simp only [domain_advances, direction_advances, h.panicsAt_eq_of_at?_eq_none hv h1 h2]

/-! ### What is announced -/

/-- The announcement at any place. Without a size it is the greatest number of all, which exceeds the
number of positions. -/
theorem lower_remaining_le_iff (h : c.domain.Valid) : c.remaining.1 ≤ c.toList.length ↔
    ∃ m, c.domain.size? = some m ∧ (m ≤ c.domain.shape.reach ∨ m ≤ c.position) := by
  unfold remaining toList
  cases hsize : c.domain.size? with
  | none =>
    have hlen := c.domain.length_valuesFrom_le c.direction c.position
    have hreach := reach_eq_of_size? hsize
    simp only [Word.positionLimit, reduceCtorEq, false_and, exists_false, iff_false]
    omega
  | some m =>
    simp only [h.length_valuesFrom hsize, Option.some.injEq, exists_eq_left']
    omega

theorem length_le_of_upper_remaining (h : c.domain.Valid) {u : Nat} (hu : c.remaining.2 = some u) :
    c.toList.length ≤ u := by
  unfold remaining at hu
  cases hsize : c.domain.size? with
  | none => rw [hsize] at hu; cases hu
  | some m =>
    rw [hsize] at hu
    obtain rfl := Option.some.inj hu
    rw [toList, h.length_valuesFrom hsize]
    omega

/-- **The exact condition under which no more is announced than comes.** Calls after the first `n`
give the values of `toList` one by one and then nothing, or panic if the cursor has started at the
last position over a list that is counted from its upper end (no list has a member there). An upper
bound on the number of values is always right. The lower bound is right just when positions count the
values of the domain and either reach all of them or the cursor has started behind them; how many calls
were made does not matter. -/
theorem remaining_bounds_iff {d : Domain} {dir : Direction} {start : Nat} (h : d.Valid)
    (hc : d.cursor dir start = .ok c) (n : Nat) :
    (∀ j, ((c.advances n).advances j).next = match (c.advances n).toList[j]? with
      | some v => .value v
      | none => if d.panicsAt dir (max start d.shape.reach) then .panic else .finished) ∧
    (∀ u, (c.advances n).remaining.2 = some u → (c.advances n).toList.length ≤ u) ∧
    ((c.advances n).remaining.1 ≤ (c.advances n).toList.length ↔
      ∃ m, d.size? = some m ∧ (m ≤ d.shape.reach ∨ m ≤ start)) := by
  obtain rfl : ⟨d, dir, start⟩ = c := by
    unfold cursor at hc
    split_ifs at hc
    exact Except.ok.inj hc
  have hvalid : (advances ⟨d, dir, start⟩ n).domain.Valid := by rwa [domain_advances]
  have hpos : start ≤ (advances ⟨d, dir, start⟩ n).position ∧
      (advances ⟨d, dir, start⟩ n).position ≤ max start d.shape.reach :=
    position_advances ⟨d, dir, start⟩ n
  refine ⟨fun j => ?_, fun u hu => length_le_of_upper_remaining hvalid hu, ?_⟩
  · -- the first calls do not get the cursor behind both its start and its values
    have hmax : max (advances ⟨d, dir, start⟩ n).position d.shape.reach = max start d.shape.reach := by
      omega
    rw [next_advances hvalid, domain_advances, direction_advances, hmax]
  · rw [lower_remaining_le_iff hvalid, domain_advances]
    -- by advancing, no cursor gets behind values that positions do not reach
    refine exists_congr fun m => and_congr_right fun _ => ?_
    simp only
    omega

/-- The powers of two. -/
def powersOfTwo : Domain := { shape := .image (.exponential 2 1) 0 .posInf }

/-- The numbers that are not positive; there is one more than positions can be looked up. -/
def nonpositive : Domain := .interval (.fin Word.least) (.fin 0)

/-- A list of two values. -/
def twoValues : Domain := { shape := .listed [1, 5] }

/-- The number of values to come in a small interval is announced as it is; that of the numbers that
are not positive is not, once all positions that can be looked up are used. Over a list that is counted
from its upper end, a cursor that starts at the last position rightly announces nothing, but panics. -/
theorem remaining_bounds_iff_intervals :
    (advances ⟨.interval (.fin 3) (.fin 7), .descending, 1⟩ 2).remaining.1 ≤
      (advances ⟨.interval (.fin 3) (.fin 7), .descending, 1⟩ 2).toList.length ∧
    (¬ (advances ⟨nonpositive, .ascending, 0⟩ 9223372036854775808).remaining.1 ≤
      (advances ⟨nonpositive, .ascending, 0⟩ 9223372036854775808).toList.length) ∧
    remaining ⟨twoValues, .descending, 18446744073709551615⟩ = (0, some 0) ∧
    next ⟨twoValues, .descending, 18446744073709551615⟩ = .panic := by
  have hsmall : cursor (.interval (.fin 3) (.fin 7)) .descending 1 =
      .ok ⟨.interval (.fin 3) (.fin 7), .descending, 1⟩ := rfl
  have hlarge : cursor nonpositive .ascending 0 = .ok ⟨nonpositive, .ascending, 0⟩ := rfl
  have hlast : cursor twoValues .descending 18446744073709551615 =
      .ok ⟨twoValues, .descending, 18446744073709551615⟩ := rfl
  refine ⟨?_, ?_, by decide, ?_⟩
  · exact (remaining_bounds_iff (by decide) hsmall 2).2.2.mpr ⟨5, by decide, Or.inl (by decide)⟩
  · intro hle
    obtain ⟨m, hm, hreach⟩ :=
      (remaining_bounds_iff (by decide) hlarge 9223372036854775808).2.2.mp hle
    obtain rfl : 9223372036854775809 = m :=
      Option.some.inj ((show some _ = nonpositive.size? by decide).trans hm)
    revert hreach
    decide
  · have hnext := (remaining_bounds_iff (by decide) hlast 0).1 0
    have hnil : toList ⟨twoValues, .descending, 18446744073709551615⟩ = [] :=
      valuesFrom_of_at?_eq_none (by decide)
    simp only [advances, hnil] at hnext
    exact hnext.trans (by decide)

/-- **A cursor may announce values and have none**: behind the last power of two that fits it
announces more than positions could count, and at the last of the numbers that are not positive it
announces that one, which it cannot look up. -/
theorem remaining_overstates :
    (powersOfTwo.Valid ∧ powersOfTwo.cursor .ascending 63 = .ok ⟨powersOfTwo, .ascending, 63⟩ ∧
      remaining ⟨powersOfTwo, .ascending, 63⟩ = (18446744073709551615, none) ∧
      toList ⟨powersOfTwo, .ascending, 63⟩ = []) ∧
    (nonpositive.Valid ∧ nonpositive.cursor .ascending 9223372036854775808 =
        .ok ⟨nonpositive, .ascending, 9223372036854775808⟩ ∧
      remaining ⟨nonpositive, .ascending, 9223372036854775808⟩ = (1, some 1) ∧
      toList ⟨nonpositive, .ascending, 9223372036854775808⟩ = []) :=
  ⟨⟨by decide, by decide, by decide, valuesFrom_of_at?_eq_none (by decide)⟩,
    by decide, by decide, by decide, valuesFrom_of_at?_eq_none (by decide)⟩

end Cursor

end ThresholdEncoding
