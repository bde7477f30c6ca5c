import Mathlib.Data.Nat.Size
import ThresholdEncoding.Proofs.BoundarySearch

/-!
# The passes of a search

A search goes through two loops. While the predicate holds just below an end, the end is doubled;
then the interval that the last doubling added is halved. What is kept between two passes is a
`Place`, and a `Run` is a sequence of passes to a place where nothing is left to ask. Its passes are
not stopped where positions end, as those of `gallop` are; so where there is a run, the loops end
because the predicate makes them end.

* `Place.Encloses`: the invariant of both loops. It counts the passes that are left.
* `Place.Encloses.next`: a pass keeps the invariant, and was one of those that were left.
* `Place.Encloses.finds`: from any place with the invariant the passes end at the boundary, and the
  search does nothing else.
* `search_finds`: this for both ways to search.
-/

namespace ThresholdEncoding.BoundarySearch

/-- What is kept between two passes of a search. -/
inductive Place where
  /-- The end `hi` is doubled as long as the predicate holds just below it. -/
  | doubling (hi : Nat)
  /-- The boundary lies between `lo` and `hi`, both included. -/
  | halving (lo hi : Nat)
  deriving DecidableEq, Repr

namespace Place

/-- Where a search starts. -/
def start : Option Nat → Place
  | some size => halving 0 size
  | none => doubling 1

/-- The index at which the next pass asks the predicate, if there is a next pass. -/
def probe? : Place → Option Nat
  | doubling hi => some (hi - 1)
  | halving lo hi => if lo < hi then some (lo + (hi - lo) / 2) else none

/-- Where a pass leads, depending on the answer of the predicate. -/
def next : Place → Bool → Place
  | doubling hi, true => doubling (2 * hi)
  | doubling hi, false => halving (hi / 2) (hi - 1)
  | halving lo hi, true => halving (lo + (hi - lo) / 2 + 1) hi
  | halving lo hi, false => halving lo (lo + (hi - lo) / 2)

/-- The largest index that is kept. -/
def top : Place → Nat
  | doubling hi => hi
  | halving lo hi => max lo hi

/-- What the search does from here on. -/
def outcome (p : Nat → Bool) : Place → Outcome
  | doubling hi => gallop p hi
  | halving lo hi => bisect p lo hi

end Place

/-- The passes from the place `a` ask `p` at the indices `ks`, one after the other, and end at `c`.
No place on the way, `a` and `c` included, keeps an index above `limit`. -/
inductive Run (p : Nat → Bool) (limit : Nat) : Place → List Nat → Place → Prop
  | rest {a : Place} (htop : a.top ≤ limit) (hask : a.probe? = none) : Run p limit a [] a
  | pass {a c : Place} {k : Nat} {ks : List Nat} (htop : a.top ≤ limit) (hask : a.probe? = some k)
      (hrun : Run p limit (a.next (p k)) ks c) : Run p limit a (k :: ks) c

/-- **A search from the place `a` with outcome `o` finds the boundary `b`** in at most `n` passes
and with indices up to `limit`. -/
structure Finds (p : Nat → Bool) (b limit n : Nat) (a : Place) (o : Outcome) : Prop where
  /-- The boundary is found. -/
  boundary_eq : o.boundary = b
  /-- The loops end. Each pass asks the predicate once, at the next of the probes, and the last
  interval is the boundary alone. -/
  run : Run p limit a o.probes (.halving b b)
  /-- There are at most `n` passes. -/
  length_probes_le : o.probes.length ≤ n
  /-- The predicate is only asked below the limit. -/
  probes_lt : ∀ k ∈ o.probes, k < limit
  /-- No end above the limit is formed. -/
  reach_le : o.reach ≤ limit

namespace Place

variable {p : Nat → Bool} {b limit n k : Nat} {a : Place}

theorem search_eq (size? : Option Nat) (p : Nat → Bool) :
    search size? p = (start size?).outcome p := by
  cases size? <;> rfl

theorem probe?_halving_eq_some_iff {lo hi : Nat} :
    (halving lo hi).probe? = some k ↔ lo < hi ∧ lo + (hi - lo) / 2 = k := by
  simp [probe?]

theorem probe?_halving_eq_none_iff {lo hi : Nat} : (halving lo hi).probe? = none ↔ hi ≤ lo := by
  simp [probe?]

/-! ### The invariant -/

/-- **The invariant of both loops**, for the boundary `b`, indices up to `limit` and `n` passes that
are left. A doubled end is a power of two, at most the least one above `b`. Once it is this one, no
more passes follow than `b` has binary digits. -/
def Encloses (b limit n : Nat) : Place → Prop
  | doubling hi => 2 ^ b.size ≤ limit ∧ limit < Word.positionLimit ∧
      ∃ j ≤ b.size, hi = 2 ^ j ∧ 2 * b.size + 1 ≤ j + n
  | halving lo hi => lo ≤ b ∧ b ≤ hi ∧ hi ≤ limit ∧ hi - lo < 2 ^ n

theorem encloses_start_some (hb : b ≤ n) : (start (some n)).Encloses b n n.size :=
  ⟨Nat.zero_le b, hb, le_rfl, Nat.lt_size_self n⟩

theorem encloses_start_none (hsize : 2 ^ b.size ≤ limit) (hlimit : limit < Word.positionLimit) :
    (start none).Encloses b limit (2 * b.size + 1) :=
  ⟨hsize, hlimit, 0, Nat.zero_le _, rfl, by omega⟩

theorem Encloses.top_le (h : a.Encloses b limit n) : a.top ≤ limit := by
  cases a with
  | doubling hi =>
    obtain ⟨hsize, -, j, hj, rfl, -⟩ := h
    exact (Nat.pow_le_pow_right (by omega) hj).trans hsize
  | halving lo hi =>
    obtain ⟨h1, h2, h3, -⟩ := h
    show max lo hi ≤ limit
    omega

theorem Encloses.probe_lt (h : a.Encloses b limit n) (hask : a.probe? = some k) : k < limit := by
  have htop := h.top_le
  cases a with
  | doubling hi =>
    obtain ⟨-, -, j, -, rfl, -⟩ := h
    obtain rfl : 2 ^ j - 1 = k := Option.some.inj hask
    have hpos := Nat.two_pow_pos j
    have : 2 ^ j ≤ limit := htop
    omega
  | halving lo hi =>
    obtain ⟨hlt, rfl⟩ := probe?_halving_eq_some_iff.mp hask
    obtain ⟨-, -, h3, -⟩ := h
    omega

/-- Where nothing is left to ask the interval has shrunk to the boundary. -/
theorem Encloses.eq_of_rest (h : a.Encloses b limit n) (hask : a.probe? = none) :
    a = halving b b := by
  cases a with
  | doubling hi => cases hask
  | halving lo hi =>
    have hle := probe?_halving_eq_none_iff.mp hask
    obtain ⟨h1, h2, -, -⟩ := h
    obtain rfl : lo = b := by omega
    obtain rfl : hi = lo := by omega
    rfl

/-- The interval that the last doubling added holds the boundary. -/
theorem between_powers (b : Nat) : 2 ^ b.size / 2 ≤ b ∧ b ≤ 2 ^ b.size - 1 := by
  have hlt := Nat.lt_size_self b
  refine ⟨?_, by omega⟩
  cases hs : b.size with
  | zero => exact Nat.zero_le b
  | succ i =>
    have hle : 2 ^ i ≤ b := Nat.lt_size.mp (by omega)
    rw [Nat.pow_succ]
    omega

theorem Encloses.next_doubling {hi : Nat} (h : (doubling hi).Encloses b limit n)
    (hp : p (hi - 1) = true ↔ hi - 1 < b) :
    ∃ m, n = m + 1 ∧ ((doubling hi).next (p (hi - 1))).Encloses b limit m := by
  obtain ⟨hsize, hlimit, j, hj, rfl, hn⟩ := h
  have hpos := Nat.two_pow_pos j
  obtain ⟨m, rfl⟩ : ∃ m, n = m + 1 := ⟨n - 1, by omega⟩
  refine ⟨m, rfl, ?_⟩
  by_cases hlt : 2 ^ j - 1 < b
  · have hj' : j < b.size := Nat.lt_size.mpr (by omega)
    rw [hp.mpr hlt]
    exact ⟨hsize, hlimit, j + 1, hj', by rw [Nat.pow_succ'], by omega⟩
  · -- the end has come to the least power of two above `b`
    obtain rfl : j = b.size := le_antisymm hj (Nat.size_le.mpr (by omega))
    obtain ⟨hlo, hhi⟩ := between_powers b
    have hpow : 2 ^ b.size ≤ 2 ^ m := Nat.pow_le_pow_right (by omega) (by omega)
    rw [Bool.eq_false_iff.mpr (mt hp.mp hlt)]
    exact ⟨hlo, hhi, by omega, by omega⟩

theorem Encloses.next_halving {lo hi : Nat} (h : (halving lo hi).Encloses b limit n)
    (hlohi : lo < hi) (hp : p (lo + (hi - lo) / 2) = true ↔ lo + (hi - lo) / 2 < b) :
    ∃ m, n = m + 1 ∧ ((halving lo hi).next (p (lo + (hi - lo) / 2))).Encloses b limit m := by
  obtain ⟨hlo, hhi, hlimit, hn⟩ := h
  obtain ⟨m, rfl⟩ : ∃ m, n = m + 1 := Nat.exists_eq_succ_of_ne_zero (by rintro rfl; omega)
  refine ⟨m, rfl, ?_⟩
  rw [Nat.pow_succ] at hn
  by_cases hlt : lo + (hi - lo) / 2 < b
  · rw [hp.mpr hlt]
    exact ⟨hlt, hhi, hlimit, by omega⟩
  · rw [Bool.eq_false_iff.mpr (mt hp.mp hlt)]
    exact ⟨hlo, by omega, by omega, by omega⟩

/-- **A pass keeps the invariant** and is one of those that were left. -/
theorem Encloses.next (h : a.Encloses b limit n) (hask : a.probe? = some k)
    (hp : p k = true ↔ k < b) : ∃ m, n = m + 1 ∧ (a.next (p k)).Encloses b limit m := by
  cases a with
  | doubling hi =>
    obtain rfl : hi - 1 = k := Option.some.inj hask
    exact h.next_doubling hp
  | halving lo hi =>
    obtain ⟨hlohi, rfl⟩ := probe?_halving_eq_some_iff.mp hask
    exact h.next_halving hlohi hp

/-! ### The search follows the passes -/

theorem outcome_of_rest {lo : Nat} (p : Nat → Bool) : (halving lo lo).outcome p = ⟨lo, [], lo⟩ := by
  show bisect p lo lo = _
  rw [bisect, if_neg (lt_irrefl lo)]

/-- The search makes the next pass. The end of positions does not keep it from doubling, as all
indices stay below it. -/
theorem Encloses.outcome_eq (h : a.Encloses b limit n) (hask : a.probe? = some k) :
    a.outcome p = ⟨((a.next (p k)).outcome p).boundary, k :: ((a.next (p k)).outcome p).probes,
      max a.top ((a.next (p k)).outcome p).reach⟩ := by
  have htop := h.top_le
  cases a with
  | doubling hi =>
    obtain ⟨-, hlimit, j, -, rfl, -⟩ := h
    obtain rfl : 2 ^ j - 1 = k := Option.some.inj hask
    show gallop p (2 ^ j) = _
    rw [gallop, if_pos ⟨Nat.two_pow_pos j, htop.trans_lt hlimit⟩]
    cases p (2 ^ j - 1) <;> rfl
  | halving lo hi =>
    obtain ⟨hlohi, rfl⟩ := probe?_halving_eq_some_iff.mp hask
    show bisect p lo hi = _
    rw [bisect, if_pos hlohi, show (halving lo hi).top = hi from max_eq_right hlohi.le]
    dsimp only
    cases p (lo + (hi - lo) / 2) <;> rfl

/-- **From any place with the invariant the boundary is found**, by induction on the passes that are
left. Of the predicate nothing has to be known at the limit and beyond. -/
theorem Encloses.finds (h : a.Encloses b limit n) (hp : ∀ k < limit, (p k = true ↔ k < b)) :
    Finds p b limit n a (a.outcome p) := by
  induction n using Nat.strong_induction_on generalizing a with
  | h n ih =>
    have htop := h.top_le
    cases hask : a.probe? with
    | none =>
      obtain rfl := h.eq_of_rest hask
      have hb : b ≤ limit := (le_max_left b b).trans htop
      rw [outcome_of_rest]
      exact ⟨rfl, .rest htop hask, Nat.zero_le n, fun _ hk => absurd hk List.not_mem_nil, hb⟩
    | some k =>
      have hk := h.probe_lt hask
      obtain ⟨m, rfl, hnext⟩ := h.next hask (hp k hk)
      have hrest := ih m (Nat.lt_succ_self m) hnext
      rw [h.outcome_eq hask]
      refine ⟨hrest.boundary_eq, .pass htop hask hrest.run, ?_, ?_, max_le htop hrest.reach_le⟩
      · exact Nat.succ_le_succ hrest.length_probes_le
      · exact List.forall_mem_cons.mpr ⟨hk, hrest.probes_lt⟩

end Place

/-! ### Both ways to search -/

/-- **The boundary is found.** Among the first `n` indices this takes no more passes than `n` has
binary digits, and only these indices are asked. Without a limit it takes one pass more than twice
the number of digits of the boundary; if the boundary is below `2 ^ 63`, only indices below `2 ^ 63`
are asked, and no end beyond `2 ^ 63` is formed. -/
theorem search_finds (p : Nat → Bool) (b : Nat) :
    (∀ n, b ≤ n → (∀ k < n, (p k = true ↔ k < b)) →
      Finds p b n n.size (.start (some n)) (search (some n) p)) ∧
    (b < 9223372036854775808 → (∀ k < 9223372036854775808, (p k = true ↔ k < b)) →
      Finds p b 9223372036854775808 (2 * b.size + 1) (.start none) (search none p)) := by
  refine ⟨fun n hb hp => ?_, fun hb hp => ?_⟩
  · rw [Place.search_eq]
    exact (Place.encloses_start_some hb).finds hp
  · have hdigits : b.size ≤ 63 := Nat.size_le.mpr hb
    have hsize : 2 ^ b.size ≤ 2 ^ 63 := Nat.pow_le_pow_right (by omega) hdigits
    rw [Place.search_eq]
    exact (Place.encloses_start_none hsize (by decide)).finds hp

/-- Two of four listed numbers are below `5`, which `3` passes find; the largest boundary that is
found without a limit takes at most `127`. -/
theorem search_finds_greatest :
    Finds (fun k => [1, 3, 5, 7][k]?.any (· < 5)) 2 4 3 (.halving 0 4)
      (search (some 4) fun k => [1, 3, 5, 7][k]?.any (· < 5)) ∧
    Finds (· < 9223372036854775807) 9223372036854775807 9223372036854775808 127 (.doubling 1)
      (search none (· < 9223372036854775807)) := by
  have hfour : Nat.size 4 = 3 := Nat.size_pow (n := 2)
  have hgreatest : Nat.size 9223372036854775807 = 63 :=
    le_antisymm (Nat.size_le.mpr (by decide)) (Nat.lt_size.mpr (by decide))
  constructor
  · rw [← hfour]
    exact (search_finds _ 2).1 4 (by decide) (by decide)
  · rw [show 127 = 2 * Nat.size 9223372036854775807 + 1 by rw [hgreatest]]
    exact (search_finds _ _).2 (by decide) fun k _ => decide_eq_true_iff

end ThresholdEncoding.BoundarySearch
