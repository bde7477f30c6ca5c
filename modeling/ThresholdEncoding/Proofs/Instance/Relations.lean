import ThresholdEncoding.Proofs.Instance.Splitting

/-!
# What added relations express

Every relation that has been added, in whatever canonical form, is expressed by the new constraints:
an upper bound by a lower bound on the opposite terms, an equality by two inequalities, and a
disequality by two inequalities of which an introduced boolean variable excuses one.

* `either_reduces`: one of two inequalities.
* `equal_reduces`, `different_reduces`, `allDifferent_reduces`: the relations that take more than
  one inequality.
-/

namespace ThresholdEncoding.Build

open Instance

variable {i j k : Instance} {ts us : List Term} {a a' : Nat} {bound bound' : Int} {r : Reification}
variable {xs : List IntVar} {ps : List (IntVar × IntVar)}

/-! ### Inequalities -/

theorem yields_atLeast_iff : (atLeast ts bound).Yields i a k ↔
    i.table.DeclaresTerms ts ∧ (pushAtLeast ts bound none).Yields i a k := by
  unfold atLeast
  rw [yields_require_bind_iff, VariableTable.requireTerms_eq_ok_iff]

theorem yields_atLeastReified_iff : (atLeastReified ts bound r).Yields i a k ↔
    i.table.DeclaresTerms ts ∧ i.table.declaresBool r.var = true ∧
      (pushAtLeast ts bound (some r)).Yields i a k := by
  unfold atLeastReified
  rw [yields_require_bind_iff, yields_require_bind_iff, VariableTable.requireTerms_eq_ok_iff,
    VariableTable.requireBool_eq_ok_iff]

theorem yields_atMost_iff : (atMost ts bound).Yields i a k ↔
    (∀ t ∈ ts, Word.Fits (-t.weight)) ∧ Word.Fits (-bound) ∧
      (atLeast (ts.map (- ·)) (-bound)).Yields i a k := by
  unfold atMost
  rw [yields_negAll_bind_iff, yields_checked_bind_iff]

theorem yields_atMostReified_iff : (atMostReified ts bound r).Yields i a k ↔
    (∀ t ∈ ts, Word.Fits (-t.weight)) ∧ Word.Fits (-bound) ∧
      (atLeastReified (ts.map (- ·)) (-bound) r).Yields i a k := by
  unfold atMostReified
  rw [yields_negAll_bind_iff, yields_checked_bind_iff]

theorem yields_greater_iff : (greater ts bound).Yields i a k ↔
    Word.Fits (bound + 1) ∧ (atLeast ts (bound + 1)).Yields i a k := by
  unfold greater
  rw [yields_checked_bind_iff]

theorem yields_less_iff : (less ts bound).Yields i a k ↔
    (∀ t ∈ ts, Word.Fits (-t.weight)) ∧ Word.Fits (1 - bound) ∧
      (atLeast (ts.map (- ·)) (1 - bound)).Yields i a k := by
  unfold less
  rw [yields_negAll_bind_iff, yields_checked_bind_iff]

section
variable (hi : i.Sound)
include hi

theorem atLeast_reduces (h : (atLeast ts bound).Yields i a k) :
    i.Reduces k (fun ν => bound ≤ ν.sum ts) fun _ => True := by
  obtain ⟨hts, h⟩ := yields_atLeast_iff.mp h
  refine (pushAtLeast_reduces hi ⟨hts, by simp⟩ h).congr fun _ ν _ => ?_
  simp [LinearConstraint.Holds]

theorem atLeastReified_reduces (h : (atLeastReified ts bound r).Yields i a k) :
    i.Reduces k (fun ν => bound ≤ ν.sum ts ∨ ν.lit r.lit = true) fun _ => True := by
  obtain ⟨hts, hr, h⟩ := yields_atLeastReified_iff.mp h
  refine (pushAtLeast_reduces hi ⟨hts, by simpa using hr⟩ h).congr fun _ ν _ => ?_
  simp [LinearConstraint.Holds]

theorem atMost_reduces (h : (atMost ts bound).Yields i a k) :
    i.Reduces k (fun ν => ν.sum ts ≤ bound) fun _ => True := by
  obtain ⟨-, -, h⟩ := yields_atMost_iff.mp h
  refine (atLeast_reduces hi h).congr fun _ ν _ => ?_
  rw [Valuation.sum_map_neg, neg_le_neg_iff]

theorem atMostReified_reduces (h : (atMostReified ts bound r).Yields i a k) :
    i.Reduces k (fun ν => ν.sum ts ≤ bound ∨ ν.lit r.lit = true) fun _ => True := by
  obtain ⟨-, -, h⟩ := yields_atMostReified_iff.mp h
  refine (atLeastReified_reduces hi h).congr fun _ ν _ => ?_
  rw [Valuation.sum_map_neg, neg_le_neg_iff]

theorem greater_reduces (h : (greater ts bound).Yields i a k) :
    i.Reduces k (fun ν => bound < ν.sum ts) fun _ => True := by
  obtain ⟨-, h⟩ := yields_greater_iff.mp h
  exact (atLeast_reduces hi h).congr fun _ ν _ => by omega

theorem less_reduces (h : (less ts bound).Yields i a k) :
    i.Reduces k (fun ν => ν.sum ts < bound) fun _ => True := by
  obtain ⟨-, -, h⟩ := yields_less_iff.mp h
  refine (atLeast_reduces hi h).congr fun _ ν _ => ?_
  rw [Valuation.sum_map_neg]
  omega

end

/-! ### Equalities and disequalities -/

theorem yields_equal_iff : (equal ts bound).Yields i a k ↔
    i.table.DeclaresTerms ts ∧ (∀ t ∈ ts, Word.Fits (-t.weight)) ∧ Word.Fits (-bound) ∧
      ∃ a' j, (pushAtLeast ts bound none).Yields i a' j ∧
        (pushAtLeast (ts.map (- ·)) (-bound) none).Yields j a k := by
  unfold equal
  rw [yields_require_bind_iff, yields_negAll_bind_iff, yields_checked_bind_iff, yields_bind_iff,
    VariableTable.requireTerms_eq_ok_iff]

/-- Adds two inequalities of which an introduced boolean variable excuses one. -/
def either (ts : List Term) (bound : Int) (us : List Term) (bound' : Int) : Build Nat := do
  let r ← addBool true
  let _ ← pushAtLeast ts bound (some ⟨r, true⟩)
  pushAtLeast us bound' (some ⟨r, false⟩)

theorem yields_either_iff : (either ts bound us bound').Yields i a k ↔ ∃ a' j,
    (pushAtLeast ts bound (some ⟨i.table.nextBool true, true⟩)).Yields (i.addBool true) a' j ∧
    (pushAtLeast us bound' (some ⟨i.table.nextBool true, false⟩)).Yields j a k := by
  unfold either
  rw [yields_addBool_bind_iff, yields_bind_iff]

theorem yields_different_iff : (different ts bound).Yields i a k ↔
    i.table.DeclaresTerms ts ∧ (∀ t ∈ ts, Word.Fits (-t.weight)) ∧ Word.Fits (bound + 1) ∧
      Word.Fits (1 - bound) ∧ (either ts (bound + 1) (ts.map (- ·)) (1 - bound)).Yields i a k := by
  unfold different
  rw [yields_require_bind_iff, yields_negAll_bind_iff, yields_checked_bind_iff,
    yields_checked_bind_iff, VariableTable.requireTerms_eq_ok_iff]
  rfl

theorem declares_either (bound : Int) (polarity : Bool) (hts : i.table.DeclaresTerms ts) :
    (i.addBool true).table.Declares ⟨ts, bound, some ⟨i.table.nextBool true, polarity⟩⟩ := by
  refine ⟨VariableTable.extends_addBool.declaresTerms hts, fun r hr => ?_⟩
  cases hr
  exact VariableTable.declaresBool_addBool_nextBool

/-- **Of two inequalities, an introduced boolean variable excuses one.** -/
theorem either_reduces (hi : i.Sound) (hts : i.table.DeclaresTerms ts)
    (hus : i.table.DeclaresTerms us) (h : (either ts bound us bound').Yields i a k) :
    i.Reduces k (fun ν => bound ≤ ν.sum ts ∨ bound' ≤ ν.sum us) fun _ => True := by
  obtain ⟨a', j, h1, h2⟩ := yields_either_iff.mp h
  have hdecl := declares_either bound true hts
  have hdecl' := declares_either bound' false hus
  have hr1 := pushAtLeast_reduces (hi.addBool true) hdecl h1
  have hr2 := pushAtLeast_reduces hr1.sound (hr1.extends_.table.declares hdecl') h2
  have hS := VariableTable.respects_holds hdecl'
  refine ((reduces_addBool hi ((VariableTable.respects_holds hdecl).and hS)).trans
    (hr1.seq hr2 hS)).congr fun _ ν _ => ?_
  simp only [LinearConstraint.Holds, Option.some.injEq, exists_eq_left', Valuation.sum_setBool,
    Reification.lit, Valuation.lit_setBool_self]
  constructor
  · rintro (h | h)
    · exact ⟨false, Or.inl h, by simp⟩
    · exact ⟨true, by simp, Or.inl h⟩
  · rintro ⟨v, h1, h2⟩
    cases v
    · exact Or.inl (by simpa using h1)
    · exact Or.inr (by simpa using h2)

theorem equal_reduces (hi : i.Sound) (h : (equal ts bound).Yields i a k) :
    i.Reduces k (fun ν => ν.sum ts = bound) fun _ => True := by
  obtain ⟨hts, -, -, a', j, h1, h2⟩ := yields_equal_iff.mp h
  have hdecl : i.table.Declares ⟨ts.map (- ·), -bound, none⟩ := ⟨hts.neg, by simp⟩
  have hr1 := pushAtLeast_reduces hi ⟨hts, by simp⟩ h1
  have hr2 := pushAtLeast_reduces hr1.sound (hr1.extends_.table.declares hdecl) h2
  refine (hr1.seq hr2 (VariableTable.respects_holds hdecl)).congr fun _ ν _ => ?_
  simp only [LinearConstraint.Holds, reduceCtorEq, false_and, exists_false, or_false,
    Valuation.sum_map_neg]
  omega

theorem different_reduces (hi : i.Sound) (h : (different ts bound).Yields i a k) :
    i.Reduces k (fun ν => ν.sum ts ≠ bound) fun _ => True := by
  obtain ⟨hts, -, -, -, h⟩ := yields_different_iff.mp h
  refine (either_reduces hi hts hts.neg h).congr fun _ ν _ => ?_
  rw [Valuation.sum_map_neg]
  omega

theorem differentPairs_cons {x y : IntVar} : differentPairs a ((x, y) :: ps) =
    either [⟨x, 1⟩, ⟨y, -1⟩] 1 [⟨x, -1⟩, ⟨y, 1⟩] 1 >>= fun last => differentPairs last ps := by
  rw [differentPairs]
  unfold either
  simp only [bind_assoc]

theorem declares_pair {x y : IntVar} {w : Int} (hx : i.table.declaresInt x = true)
    (hy : i.table.declaresInt y = true) (hw : w ≠ 0) :
    i.table.DeclaresTerms [⟨x, w⟩, ⟨y, -w⟩] :=
  VariableTable.declaresTerms_pair ⟨hx, hw⟩ ⟨hy, neg_ne_zero.mpr hw⟩

theorem differentPairs_reduces (hi : i.Sound) (hps : ∀ p ∈ ps, i.table.declaresInt p.1 = true ∧
    i.table.declaresInt p.2 = true) (h : (differentPairs a ps).Yields i a' k) :
    i.Reduces k (fun ν => ∀ p ∈ ps, ν.int p.1 ≠ ν.int p.2) fun _ => True := by
  induction ps generalizing i a with
  | nil =>
    obtain ⟨-, rfl⟩ := yields_pure_iff.mp h
    exact (Reduces.refl hi).congr fun _ ν _ => by simp
  | cons p ps ih =>
    obtain ⟨x, y⟩ := p
    obtain ⟨⟨hx, hy⟩, hps⟩ := List.forall_mem_cons.mp hps
    rw [differentPairs_cons, yields_bind_iff] at h
    obtain ⟨a₁, j, h1, h3⟩ := h
    have hr := either_reduces hi (declares_pair hx hy (show (1 : Int) ≠ 0 by decide))
      (declares_pair hx hy (show (-1 : Int) ≠ 0 by decide)) h1
    have hrest := ih hr.sound (fun p hp => ⟨hr.extends_.table.declaresInt (hps p hp).1,
      hr.extends_.table.declaresInt (hps p hp).2⟩) h3
    refine (hr.seq hrest ?_).congr fun _ ν _ => ?_
    · intro ν μ hνμ hν p hp
      rw [← hνμ.int p.1 (hps p hp).1, ← hνμ.int p.2 (hps p hp).2]
      exact hν p hp
    · rw [List.forall_mem_cons]
      refine and_congr_left fun _ => ?_
      simp only [Valuation.sum_cons, Valuation.sum_nil]
      omega

theorem forall_mem_pairsOf_iff {α : Type} {P : α → α → Prop} {l : List α} :
    (∀ p ∈ pairsOf l, P p.1 p.2) ↔ l.Pairwise P := by
  induction l with
  | nil => simp [pairsOf]
  | cons x l ih =>
    rw [List.pairwise_cons, ← ih, pairsOf]
    simp [or_imp, forall_and]

theorem forall_mem_pairsOf_declared (h : ∀ x ∈ xs, i.table.declaresInt x = true) :
    ∀ p ∈ pairsOf xs, i.table.declaresInt p.1 = true ∧ i.table.declaresInt p.2 = true :=
  (forall_mem_pairsOf_iff
    (P := fun x y => i.table.declaresInt x = true ∧ i.table.declaresInt y = true)).mpr
    (List.pairwise_of_forall_mem_list fun x hx y hy => ⟨h x hx, h y hy⟩)

theorem yields_allDifferent_iff : (allDifferent xs).Yields i a k ↔
    2 ≤ xs.length ∧ (∀ x ∈ xs, i.table.declaresInt x = true) ∧
      (differentPairs 0 (pairsOf xs)).Yields i a k := by
  unfold allDifferent
  split_ifs with hlen
  · refine ⟨fun h => ?_, fun h => by omega⟩
    cases h.1
  · rw [yields_require_bind_iff, List.forM_eq_ok_iff]
    simp only [VariableTable.requireInt_eq_ok_iff]
    exact ⟨fun h => ⟨by omega, h⟩, fun h => h.2⟩

theorem allDifferent_reduces (hi : i.Sound) (h : (allDifferent xs).Yields i a k) :
    i.Reduces k (fun ν => xs.Pairwise (ν.int · ≠ ν.int ·)) fun _ => True := by
  obtain ⟨-, hxs, h⟩ := yields_allDifferent_iff.mp h
  have hps := forall_mem_pairsOf_declared hxs
  exact (differentPairs_reduces hi hps h).congr fun _ ν _ => forall_mem_pairsOf_iff.symm

end ThresholdEncoding.Build
