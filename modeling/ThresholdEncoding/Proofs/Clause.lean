import Mathlib.Tactic
import ThresholdEncoding.Clause

/-!
# Simplified clauses

Literals are *alike* if they differ in their annotations at most. Simplifying scans a clause once
and remembers the literals it has passed, without annotations. This answers both questions it asks
at a literal: whether a literal like it stands before it, and whether one like its complement does.
The lemmas about the scan hold for whatever has been passed before.

* `Clause.Tautological`: what makes a clause hold always.
* `Clause.firstOccurrences`: of literals that are alike the first one, without constant false.
* `Clause.simplifyLaws`: simplifying is exact, keeps the value, and changes nothing a second time.
-/

namespace ThresholdEncoding

namespace Literal

variable {l l' : Literal} {a : Assignment}

/-- The literals differ in their annotations at most. -/
def alike (l l' : Literal) : Bool := l.bare = l'.bare

theorem evaluate_eq_of_bare (h : l.bare = l'.bare) : l.evaluate a = l'.evaluate a := by
  rw [← evaluate_bare, h, evaluate_bare]

theorem bare_eq_const_iff {b : Bool} : l.bare = .const b ↔ l = .const b := by
  cases l <;> simp [bare]

theorem bare_complement_eq_const_iff {b : Bool} :
    l.complement.bare = .const b ↔ l = .const (!b) := by
  rw [bare_eq_const_iff]
  cases l <;> simp [complement, Bool.not_eq_eq_eq_not]

/-- To be like the complement goes both ways. -/
theorem bare_complement_eq_comm : l.complement.bare = l'.bare ↔ l'.complement.bare = l.bare := by
  rw [bare_complement, bare_complement]
  constructor
  · intro h; rw [← h, complement_complement]
  · intro h; rw [← h, complement_complement]

theorem bare_complement_ne : l.complement.bare ≠ l.bare := by
  cases l with
  | bool l =>
    rcases l with ⟨x, negated⟩
    simp [complement, bare, BoolLit.complement]
  | _ => simp [complement, bare]

end Literal

namespace Clause

variable {c c' d : Clause} {l : Literal} {seen : List Literal} {a : Assignment}

/-- The clause contains the constant true, or two literals of which one is like the complement of
the other. -/
def Tautological (c : Clause) : Prop :=
  .const true ∈ c ∨ ∃ l ∈ c, ∃ l' ∈ c, l.complement.bare = l'.bare

/-- The literals other than constant false, in order; of those that are alike the first one. -/
def firstOccurrences (c : Clause) : Clause :=
  (c.filter (· ≠ .const false)).eraseDupsBy Literal.alike

theorem tautological_cons : Tautological (l :: c) ↔
    l = .const true ∨ c.Tautological ∨ ∃ l' ∈ c, l'.complement.bare = l.bare := by
  simp only [Tautological, List.mem_cons, exists_eq_or_imp]
  constructor
  · rintro ((h | h) | ((h | ⟨l', hl', h⟩) | ⟨l', hl', h | h⟩))
    · exact Or.inl h.symm
    · exact Or.inr (Or.inl (Or.inl h))
    · exact absurd h Literal.bare_complement_ne
    · exact Or.inr (Or.inr ⟨l', hl', Literal.bare_complement_eq_comm.mp h⟩)
    · exact Or.inr (Or.inr ⟨l', hl', h⟩)
    · exact Or.inr (Or.inl (Or.inr ⟨l', hl', h⟩))
  · rintro (rfl | (h | h) | ⟨l', hl', h⟩)
    · exact Or.inl (Or.inl rfl)
    · exact Or.inl (Or.inr h)
    · exact Or.inr (Or.inr (h.imp fun l' h' => ⟨h'.1, Or.inr h'.2⟩))
    · exact Or.inr (Or.inr ⟨l', hl', Or.inl h⟩)

theorem tautological_congr (h : ∀ l, l ∈ c ↔ l ∈ d) : c.Tautological ↔ d.Tautological := by
  simp only [Tautological, h]

/-! ### The scan -/

/-- **Where the scan gives up**: at a constant true, or at the second of two complements, of which
the first may have been passed before. -/
theorem go_eq_none_iff : simplify.go seen c = none ↔
    c.Tautological ∨ ∃ l ∈ c, l.complement.bare ∈ seen := by
  fun_induction simplify.go seen c with
  | case1 seen => simp [Tautological]
  | case2 seen l c h =>
    rw [tautological_cons]
    refine iff_of_true rfl ?_
    rcases h with h | h
    · exact Or.inl (Or.inl h)
    · exact Or.inr ⟨l, List.mem_cons_self, h⟩
  | case3 seen l c h hskip ih =>
    obtain ⟨htrue, hseen⟩ := not_or.mp h
    rw [ih, tautological_cons]
    simp only [List.mem_cons, exists_eq_or_imp, htrue, hseen, false_or]
    refine ⟨fun h => h.imp Or.inl id, ?_⟩
    rintro ((h | ⟨l', hl', h⟩) | h)
    · exact Or.inl h
    · -- the complement of a literal that is left out is not needed
      rcases hskip with rfl | hskip
      · exact Or.inl (Or.inl (Literal.bare_complement_eq_const_iff.mp h ▸ hl'))
      · exact Or.inr ⟨l', hl', h ▸ hskip⟩
    · exact Or.inr h
  | case4 seen l c h hskip ih =>
    obtain ⟨htrue, hseen⟩ := not_or.mp h
    rw [Option.map_eq_none_iff, ih, tautological_cons]
    simp only [List.mem_cons, exists_eq_or_imp, htrue, hseen, false_or, and_or_left, exists_or,
      or_assoc]

/-- **What the scan keeps**: first occurrences of literals that have not been passed before. -/
theorem eq_of_go (h : simplify.go seen c = some d) :
    d = (c.filter fun l => l ≠ .const false ∧ l.bare ∉ seen).eraseDupsBy Literal.alike := by
  fun_induction simplify.go seen c generalizing d with
  | case1 seen => cases h; rfl
  | case2 seen l c hstop => cases h
  | case3 seen l c hstop hskip ih =>
    rw [ih h, List.filter_cons_of_neg (by simpa [or_iff_not_imp_left] using hskip)]
  | case4 seen l c hstop hskip ih =>
    obtain ⟨hfalse, hseen⟩ := not_or.mp hskip
    obtain ⟨d, hd, rfl⟩ := Option.map_eq_some_iff.mp h
    rw [List.filter_cons_of_pos (by simp [hfalse, hseen]), List.eraseDupsBy_cons,
      List.filter_filter, ih hd]
    congr 3
    funext l'
    simp only [Literal.alike, List.mem_cons, decide_eq_false_iff_not]
    grind

theorem sublist_of_go (h : simplify.go seen c = some d) : d.Sublist c := by
  fun_induction simplify.go seen c generalizing d with
  | case1 seen => cases h; exact List.Sublist.slnil
  | case2 seen l c hstop => cases h
  | case3 seen l c hstop hskip ih => exact (ih h).cons l
  | case4 seen l c hstop hskip ih =>
    obtain ⟨d, hd, rfl⟩ := Option.map_eq_some_iff.mp h
    exact (ih hd).cons_cons l

/-- Nothing is lost but constant false and what is like a literal that stays or was passed. -/
theorem exists_alike_of_go (h : simplify.go seen c = some d) (hl : l ∈ c)
    (hfalse : l ≠ .const false) : l.bare ∈ seen ∨ ∃ l' ∈ d, l'.bare = l.bare := by
  fun_induction simplify.go seen c generalizing d with
  | case1 seen => cases hl
  | case2 seen l' c hstop => cases h
  | case3 seen l' c hstop hskip ih =>
    rcases List.mem_cons.mp hl with rfl | hl
    · exact Or.inl (hskip.resolve_left hfalse)
    · exact ih h hl
  | case4 seen l' c hstop hskip ih =>
    obtain ⟨d, hd, rfl⟩ := Option.map_eq_some_iff.mp h
    rcases List.mem_cons.mp hl with rfl | hl
    · exact Or.inr ⟨l, List.mem_cons_self, rfl⟩
    · rcases ih hd hl with hseen | ⟨l'', hl'', heq⟩
      · rcases List.mem_cons.mp hseen with heq | hseen
        · exact Or.inr ⟨l', List.mem_cons_self, heq.symm⟩
        · exact Or.inl hseen
      · exact Or.inr ⟨l'', List.mem_cons_of_mem _ hl'', heq⟩

/-- What the scan keeps it would keep again. -/
theorem go_go (h : simplify.go seen c = some d) : simplify.go seen d = some d := by
  fun_induction simplify.go seen c generalizing d with
  | case1 seen => cases h; rfl
  | case2 seen l c hstop => cases h
  | case3 seen l c hstop hskip ih => exact ih h
  | case4 seen l c hstop hskip ih =>
    obtain ⟨d, hd, rfl⟩ := Option.map_eq_some_iff.mp h
    rw [simplify.go, if_neg hstop, if_neg hskip, ih hd]
    rfl

/-! ### Values -/

/-- Literals that are false do not count for the value of a clause. -/
theorem evaluate_congr (h : ∀ v, v ≠ some false →
    ((∃ l ∈ c, l.evaluate a = v) ↔ ∃ l ∈ d, l.evaluate a = v)) : c.evaluate a = d.evaluate a := by
  have htrue := h (some true) (by decide)
  have hnone := h none (by decide)
  simp only [evaluate, List.any_eq_true, decide_eq_true_eq, htrue, hnone]

theorem evaluate_eq_some_false_iff :
    c.evaluate a = some false ↔ ∀ l ∈ c, l.evaluate a = some false := by
  have hvalue : ∀ v : Option Bool, v = some false ↔ v ≠ some true ∧ v ≠ none := by decide
  unfold evaluate
  simp only [List.any_eq_true, decide_eq_true_eq]
  split_ifs with htrue hnone
  · obtain ⟨l, hl, h⟩ := htrue
    exact iff_of_false (by decide) fun hall => by simpa [h] using hall l hl
  · obtain ⟨l, hl, h⟩ := hnone
    exact iff_of_false (by decide) fun hall => by simpa [h] using hall l hl
  · exact iff_of_true rfl fun l hl =>
      (hvalue _).mpr ⟨fun h => htrue ⟨l, hl, h⟩, fun h => hnone ⟨l, hl, h⟩⟩

/-- **A clause that always holds is never false**, not even where variables have no values. -/
theorem Tautological.evaluate_ne (h : c.Tautological) : c.evaluate a ≠ some false := by
  rw [ne_eq, evaluate_eq_some_false_iff]
  intro hall
  rcases h with htrue | ⟨l, hl, l', hl', heq⟩
  · cases hall _ htrue
  · have hopposite := hall l' hl'
    rw [← Literal.evaluate_eq_of_bare heq, Literal.evaluate_complement, hall l hl] at hopposite
    cases hopposite

/-- **What the scan keeps has the value of the clause.** -/
theorem evaluate_of_go (h : simplify.go [] c = some d) : d.evaluate a = c.evaluate a := by
  refine evaluate_congr fun v hv => ⟨?_, ?_⟩
  · rintro ⟨l, hl, rfl⟩
    exact ⟨l, (sublist_of_go h).subset hl, rfl⟩
  · rintro ⟨l, hl, rfl⟩
    have hfalse : l ≠ .const false := by rintro rfl; exact hv rfl
    obtain ⟨l', hl', heq⟩ := (exists_alike_of_go h hl hfalse).resolve_left List.not_mem_nil
    exact ⟨l', hl', Literal.evaluate_eq_of_bare heq⟩

/-! ### The contract -/

/-- What is promised about the simplified clause. -/
structure SimplifyLaws (c : Clause) : Prop where
  /-- A clause is dropped just when it contains the constant true, or a literal and one like its
  complement. -/
  eq_none_iff : c.simplify = none ↔ c.Tautological
  /-- Otherwise the first occurrences of its literals are left, without constant false. -/
  eq_some : ¬ c.Tautological → c.simplify = some c.firstOccurrences
  /-- What is left has the same value, whether or not all variables have values. -/
  evaluate_eq : ∀ d, c.simplify = some d → ∀ a, d.evaluate a = c.evaluate a
  /-- A dropped clause is never false. -/
  evaluate_ne : c.simplify = none → ∀ a, c.evaluate a ≠ some false
  /-- What is left is not simplified any further. -/
  simplify_eq : ∀ d, c.simplify = some d → d.simplify = some d
  /-- Whether a clause is dropped does not depend on the order of its literals. -/
  perm : ∀ d : Clause, List.Perm d c → (d.simplify = none ↔ c.simplify = none)

theorem simplify_eq_none_iff : c.simplify = none ↔ c.Tautological := by
  simp [simplify, go_eq_none_iff]

/-- **Simplifying is exact.** -/
theorem simplifyLaws (c : Clause) : c.SimplifyLaws where
  eq_none_iff := simplify_eq_none_iff
  eq_some := by
    intro h
    obtain ⟨d, hd⟩ := Option.ne_none_iff_exists'.mp (mt simplify_eq_none_iff.mp h)
    rw [hd, eq_of_go hd]
    simp [firstOccurrences]
  evaluate_eq := fun d hd a => evaluate_of_go hd
  evaluate_ne := fun h a => (simplify_eq_none_iff.mp h).evaluate_ne
  simplify_eq := fun d hd => go_go hd
  perm := fun d hd => by
    rw [simplify_eq_none_iff, simplify_eq_none_iff]
    exact tautological_congr fun l => hd.mem_iff

-- the first one of two literals that differ in their annotations is kept as it is
example : simplify [.atLeast ⟨0, false⟩ 3 true true, .const false, .bool ⟨⟨0, false⟩, false⟩,
    .atLeast ⟨0, false⟩ 3 true false] =
      some [.atLeast ⟨0, false⟩ 3 true true, .bool ⟨⟨0, false⟩, false⟩] := by decide

end Clause

end ThresholdEncoding
