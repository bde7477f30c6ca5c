import Mathlib.Tactic
import ThresholdEncoding.BoundarySearch

/-!
# The boundary is found

A predicate that holds exactly below `b` has the boundary `b`, and both ways to search find it: by
halving if `b` lies in the interval, by doubling and halving if `b` is below `2 ^ 64`.
-/

namespace ThresholdEncoding.BoundarySearch

variable {p : Nat → Bool} {b : Nat}

theorem boundary_bisect {lo hi : Nat} (h1 : lo ≤ b) (h2 : b ≤ hi)
    (hp : ∀ k, lo ≤ k → k < hi → (p k = true ↔ k < b)) : (bisect p lo hi).boundary = b := by
  fun_induction bisect p lo hi with
  | case1 lo hi h mid rest ih1 ih2 =>
    have hmid := hp mid (by omega) (by omega)
    show rest.boundary = b
    by_cases hpm : p mid = true
    · simp only [rest, dif_pos hpm]
      exact ih1 (by have := hmid.mp hpm; omega) h2 fun k hk hk' => hp k (by omega) hk'
    · simp only [rest, dif_neg hpm]
      exact ih2 h1 (by have := mt hmid.mpr hpm; omega) fun k hk hk' => hp k hk (by omega)
  | case2 lo hi h =>
    show lo = b
    omega

/-- The doubling keeps half of the end at or below the boundary, so it never needs an end beyond
twice the boundary; where the doubling stops, the boundary lies before the end. -/
theorem boundary_gallop {hi : Nat} (h0 : 0 < hi) (h1 : hi / 2 ≤ b)
    (hb : b < 18446744073709551616) (hp : ∀ k, p k = true ↔ k < b) : (gallop p hi).boundary = b := by
  fun_induction gallop p hi with
  | case1 hi h rest ih =>
    show rest.boundary = b
    by_cases hph : p (hi - 1) = true
    · simp only [rest, dif_pos hph]
      exact ih (by omega) (by have := (hp _).mp hph; omega)
    · simp only [rest, dif_neg hph]
      have : ¬ hi - 1 < b := mt (hp _).mpr hph
      exact boundary_bisect h1 (by omega) fun k _ _ => hp k
  | case2 hi h =>
    have : Word.positionLimit = 18446744073709551616 := rfl
    exact boundary_bisect h1 (by omega) fun k _ _ => hp k

theorem boundary_some {n : Nat} (hb : b ≤ n) (hp : ∀ k < n, (p k = true ↔ k < b)) :
    boundary (some n) p = b :=
  boundary_bisect (Nat.zero_le b) hb fun k _ hk => hp k hk

theorem boundary_none (hb : b < 18446744073709551616) (hp : ∀ k, p k = true ↔ k < b) :
    boundary none p = b :=
  boundary_gallop Nat.one_pos (Nat.zero_le b) hb hp

/-- A predicate that is passed down to smaller numbers has a boundary. -/
theorem exists_boundary (n : Nat) {q : Nat → Prop} (hq : ∀ {j k}, j ≤ k → k < n → q k → q j) :
    ∃ b ≤ n, ∀ k < n, (q k ↔ k < b) := by
  induction n with
  | zero => exact ⟨0, le_refl 0, fun k hk => by omega⟩
  | succ n ih =>
    by_cases hn : q n
    · exact ⟨n + 1, le_refl _, fun k hk => ⟨fun _ => hk, fun _ => hq (by omega) (by omega) hn⟩⟩
    · obtain ⟨b, hb, hb'⟩ := ih fun hjk hk => hq hjk (by omega)
      refine ⟨b, by omega, fun k hk => ?_⟩
      rcases Nat.lt_succ_iff_lt_or_eq.mp hk with hk | rfl
      · exact hb' k hk
      · exact ⟨fun h => absurd h hn, fun h => by omega⟩

/-- A predicate has at most one boundary. -/
theorem eq_of_boundaries {n c : Nat} {q : Nat → Prop} (hb : b ≤ n) (hc : c ≤ n)
    (hb' : ∀ k < n, (q k ↔ k < b)) (hc' : ∀ k < n, (q k ↔ k < c)) : b = c := by
  rcases lt_trichotomy b c with h | h | h
  · have := ((hc' b (by omega)).mpr h |> (hb' b (by omega)).mp)
    omega
  · exact h
  · have := ((hb' c (by omega)).mpr h |> (hc' c (by omega)).mp)
    omega

end ThresholdEncoding.BoundarySearch
