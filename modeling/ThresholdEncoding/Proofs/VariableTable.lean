import ThresholdEncoding.Instance.Relations
import ThresholdEncoding.Proofs.Domain.Sum
import ThresholdEncoding.Proofs.Except
import ThresholdEncoding.Proofs.Valuation

/-!
# Valuations of declared variables

A table of variables restricts the valuations to those that give declared variables values of their
domains. Declaring further variables keeps what is known about the old ones: a constraint over the
variables of a table does not depend on others.

* `Extends`: a table has all variables of another one.
* `Admits`, `Agree`: valuations as far as a table is concerned.
* `respects_holds`: constraints over declared variables do not depend on others.
* `requireTerms_eq_ok_iff`: what the checks of the library check.
-/

namespace ThresholdEncoding

/-- The valuation with another value for an integer variable. -/
def Valuation.setInt (ν : Valuation) (x : IntVar) (v : Int) : Valuation :=
  { ν with int := Function.update ν.int x v }

/-- The valuation with another value for a boolean variable. -/
def Valuation.setBool (ν : Valuation) (b : BoolVar) (v : Bool) : Valuation :=
  { ν with bool := Function.update ν.bool b v }

theorem Valuation.lit_setInt {ν : Valuation} {x : IntVar} {v : Int} {l : BoolLit} :
    (ν.setInt x v).lit l = ν.lit l := rfl

theorem Valuation.lit_setBool_self {ν : Valuation} {b : BoolVar} {v negated : Bool} :
    (ν.setBool b v).lit ⟨b, negated⟩ = (v != negated) := by
  simp [lit, setBool]

theorem Valuation.sum_setBool {ν : Valuation} {b : BoolVar} {v : Bool} {ts : List Term} :
    (ν.setBool b v).sum ts = ν.sum ts := rfl

namespace VariableTable

/-- All variables of one table are variables of another one, with the same domains. -/
structure Extends (T T' : VariableTable) : Prop where
  ints : T.ints <+: T'.ints
  bools : T.bools <+: T'.bools

/-- All domains are valid. -/
def Valid (T : VariableTable) : Prop := ∀ x d, T.domain? x = some d → d.Valid

/-- All domains are closed. -/
def Closed (T : VariableTable) : Prop := ∀ x d, T.domain? x = some d → d.isOpen = false

/-- Terms over declared variables with weights other than zero. -/
def DeclaresTerms (T : VariableTable) (ts : List Term) : Prop :=
  ∀ t ∈ ts, T.declaresInt t.var = true ∧ t.weight ≠ 0

instance (T : VariableTable) (ts : List Term) : Decidable (T.DeclaresTerms ts) :=
  inferInstanceAs (Decidable (∀ t ∈ ts, _))

/-- A constraint over declared variables. -/
structure Declares (T : VariableTable) (c : LinearConstraint) : Prop where
  terms : T.DeclaresTerms c.terms
  reification : ∀ r, c.reification = some r → T.declaresBool r.var = true

/-- The valuation gives every declared integer variable a value of its domain. -/
def Admits (T : VariableTable) (ν : Valuation) : Prop :=
  ∀ x d, T.domain? x = some d → d.Admits (ν.int x)

/-- The valuations give the same values to declared variables. -/
structure Agree (T : VariableTable) (ν μ : Valuation) : Prop where
  int : ∀ x, T.declaresInt x = true → ν.int x = μ.int x
  bool : ∀ b, T.declaresBool b = true → ν.bool b = μ.bool b

/-- A property of valuations that only depends on declared variables. -/
def Respects (T : VariableTable) (S : Valuation → Prop) : Prop := ∀ ν μ, T.Agree ν μ → S ν → S μ

variable {T T' T'' : VariableTable} {x : IntVar} {b : BoolVar} {d : Domain} {introduced : Bool}
variable {ν μ ρ : Valuation} {c : LinearConstraint} {ts : List Term} {R S : Valuation → Prop}

theorem declaresInt_iff : T.declaresInt x = true ↔ ∃ d, T.domain? x = some d :=
  Option.isSome_iff_exists

theorem declaresBool_iff : T.declaresBool b = true ↔ T.bools[b.index]? = some b.introduced :=
  decide_eq_true_iff

theorem declaresTerms_nil : T.DeclaresTerms [] := by simp [DeclaresTerms]

theorem declaresTerms_cons_iff {t : Term} : T.DeclaresTerms (t :: ts) ↔
    (T.declaresInt t.var = true ∧ t.weight ≠ 0) ∧ T.DeclaresTerms ts := List.forall_mem_cons

theorem declaresTerms_singleton {t : Term} (ht : T.declaresInt t.var = true ∧ t.weight ≠ 0) :
    T.DeclaresTerms [t] := declaresTerms_cons_iff.mpr ⟨ht, declaresTerms_nil⟩

theorem declaresTerms_pair {t u : Term} (ht : T.declaresInt t.var = true ∧ t.weight ≠ 0)
    (hu : T.declaresInt u.var = true ∧ u.weight ≠ 0) : T.DeclaresTerms [t, u] :=
  declaresTerms_cons_iff.mpr ⟨ht, declaresTerms_singleton hu⟩

theorem declaresTerms_reverse_iff : T.DeclaresTerms ts.reverse ↔ T.DeclaresTerms ts := by
  simp [DeclaresTerms]

/-- The domain of a variable is one of those declared. -/
theorem exists_of_domain? (h : T.domain? x = some d) : ∃ e ∈ T.ints, e.domain = d := by
  unfold VariableTable.domain? at h
  cases he : T.ints[x.index]? with
  | none => rw [he] at h; cases h
  | some e =>
    simp only [he] at h
    split_ifs at h
    exact ⟨e, List.mem_of_getElem? he, Option.some.inj h⟩

theorem closed_of_forall (h : ∀ e ∈ T.ints, e.domain.isOpen = false) : T.Closed := by
  intro x d hd
  obtain ⟨e, he, rfl⟩ := exists_of_domain? hd
  exact h e he

theorem valid_of_forall (h : ∀ e ∈ T.ints, e.domain.Valid) : T.Valid := by
  intro x d hd
  obtain ⟨e, he, rfl⟩ := exists_of_domain? hd
  exact h e he

/-! ### Extensions -/

theorem Extends.refl (T : VariableTable) : T.Extends T := ⟨List.prefix_refl _, List.prefix_refl _⟩

theorem Extends.trans (h : T.Extends T') (h' : T'.Extends T'') : T.Extends T'' :=
  ⟨h.ints.trans h'.ints, h.bools.trans h'.bools⟩

theorem extends_addInt : T.Extends (T.addInt d introduced) :=
  ⟨List.prefix_append _ _, List.prefix_refl _⟩

theorem extends_addBool : T.Extends (T.addBool introduced) :=
  ⟨List.prefix_refl _, List.prefix_append _ _⟩

theorem Extends.domain? (h : T.Extends T') (hx : T.domain? x = some d) : T'.domain? x = some d := by
  unfold VariableTable.domain? at hx ⊢
  cases he : T.ints[x.index]? with
  | none => rw [he] at hx; cases hx
  | some e =>
    rw [he] at hx
    obtain ⟨l, hl⟩ := h.ints
    have hlt : x.index < T.ints.length := (List.getElem?_eq_some_iff.mp he).1
    rw [← hl, List.getElem?_append_left hlt, he]
    exact hx

theorem Extends.declaresInt (h : T.Extends T') (hx : T.declaresInt x = true) :
    T'.declaresInt x = true := by
  obtain ⟨d, hd⟩ := declaresInt_iff.mp hx
  exact declaresInt_iff.mpr ⟨d, h.domain? hd⟩

theorem Extends.declaresBool (h : T.Extends T') (hb : T.declaresBool b = true) :
    T'.declaresBool b = true := by
  rw [declaresBool_iff] at hb ⊢
  obtain ⟨l, hl⟩ := h.bools
  have hlt : b.index < T.bools.length := (List.getElem?_eq_some_iff.mp hb).1
  rw [← hl, List.getElem?_append_left hlt, hb]

theorem Extends.declaresTerms (h : T.Extends T') (hts : T.DeclaresTerms ts) :
    T'.DeclaresTerms ts := fun t ht => ⟨h.declaresInt (hts t ht).1, (hts t ht).2⟩

theorem Extends.declares (h : T.Extends T') (hc : T.Declares c) : T'.Declares c :=
  ⟨h.declaresTerms hc.terms, fun r hr => h.declaresBool (hc.reification r hr)⟩

theorem Extends.admits (h : T.Extends T') (hν : T'.Admits ν) : T.Admits ν :=
  fun x d hx => hν x d (h.domain? hx)

theorem Extends.closed (h : T.Extends T') (hT : T'.Closed) : T.Closed :=
  fun x d hx => hT x d (h.domain? hx)

theorem Extends.agree (h : T.Extends T') (hν : T'.Agree ν μ) : T.Agree ν μ :=
  ⟨fun x hx => hν.int x (h.declaresInt hx), fun b hb => hν.bool b (h.declaresBool hb)⟩

/-! ### Declarations -/

/-- After a declaration the old variables and the new one are declared. -/
theorem domain?_addInt_iff {e : Domain} : (T.addInt d introduced).domain? x = some e ↔
    T.domain? x = some e ∨ (x = T.nextInt introduced ∧ d = e) := by
  rcases lt_trichotomy x.index T.ints.length with h | h | h
  · rw [domain?_addInt_of_lt h]
    refine ⟨Or.inl, fun h' => h'.elim id ?_⟩
    rintro ⟨rfl, -⟩
    simp [nextInt] at h
  · have hnone : T.domain? x = none := by simp [VariableTable.domain?, h]
    obtain ⟨k, intro⟩ := x
    obtain rfl : k = T.ints.length := h
    rw [hnone]
    simp only [VariableTable.domain?, addInt, List.getElem?_concat_length, nextInt,
      IntVar.mk.injEq, true_and, reduceCtorEq, false_or]
    split_ifs with hi
    · simp [hi]
    · simp [Ne.symm hi]
  · have hnone : T.domain? x = none := by
      simp [VariableTable.domain?, List.getElem?_eq_none h.le]
    have hnone' : (T.addInt d introduced).domain? x = none := by
      simp only [VariableTable.domain?, addInt]
      rw [List.getElem?_eq_none (by simp; omega)]
    rw [hnone, hnone']
    simp only [reduceCtorEq, false_or, false_iff, not_and]
    rintro rfl
    simp [nextInt] at h

theorem declaresInt_addInt_iff : (T.addInt d introduced).declaresInt x = true ↔
    T.declaresInt x = true ∨ x = T.nextInt introduced := by
  simp only [declaresInt_iff, domain?_addInt_iff, exists_or]
  simp

theorem declaresInt_addInt_nextInt : (T.addInt d introduced).declaresInt (T.nextInt introduced) =
    true := declaresInt_addInt_iff.mpr (Or.inr rfl)

theorem declaresInt_nextInt (T : VariableTable) (introduced : Bool) :
    T.declaresInt (T.nextInt introduced) = false := by
  simp [VariableTable.declaresInt, VariableTable.domain?, nextInt]

theorem declaresBool_nextBool (T : VariableTable) (introduced : Bool) :
    T.declaresBool (T.nextBool introduced) = false := by
  simp [VariableTable.declaresBool, nextBool]

theorem declaresBool_addBool_iff : (T.addBool introduced).declaresBool b = true ↔
    T.declaresBool b = true ∨ b = T.nextBool introduced := by
  rw [declaresBool_iff, declaresBool_iff]
  unfold addBool nextBool
  rcases lt_trichotomy b.index T.bools.length with h | h | h
  · rw [List.getElem?_append_left h]
    refine ⟨Or.inl, fun h' => h'.elim id ?_⟩
    rintro rfl
    simp at h
  · obtain ⟨k, intro⟩ := b
    obtain rfl : k = T.bools.length := h
    simp [eq_comm]
  · rw [List.getElem?_eq_none (by simp; omega), List.getElem?_eq_none h.le]
    simp only [reduceCtorEq, false_or, false_iff]
    rintro rfl
    simp at h

theorem Valid.addInt (hT : T.Valid) (hd : d.Valid) : (T.addInt d introduced).Valid := by
  intro x e he
  rcases domain?_addInt_iff.mp he with h | ⟨-, rfl⟩
  · exact hT x e h
  · exact hd

theorem Closed.addInt (hT : T.Closed) (hd : d.isOpen = false) : (T.addInt d introduced).Closed := by
  intro x e he
  rcases domain?_addInt_iff.mp he with h | ⟨-, rfl⟩
  · exact hT x e h
  · exact hd

theorem admits_addInt_iff :
    (T.addInt d introduced).Admits ν ↔ T.Admits ν ∧ d.Admits (ν.int (T.nextInt introduced)) := by
  constructor
  · intro h
    exact ⟨fun x e he => h x e (domain?_addInt_iff.mpr (Or.inl he)),
      h _ d (domain?_addInt_iff.mpr (Or.inr ⟨rfl, rfl⟩))⟩
  · rintro ⟨h1, h2⟩ x e he
    rcases domain?_addInt_iff.mp he with h | ⟨rfl, rfl⟩
    · exact h1 x e h
    · exact h2

/-! ### Valuations -/

theorem Agree.refl (ν : Valuation) : T.Agree ν ν := ⟨fun _ _ => rfl, fun _ _ => rfl⟩

theorem Agree.symm (h : T.Agree ν μ) : T.Agree μ ν :=
  ⟨fun x hx => (h.int x hx).symm, fun b hb => (h.bool b hb).symm⟩

theorem Agree.trans (h : T.Agree ν μ) (h' : T.Agree μ ρ) : T.Agree ν ρ :=
  ⟨fun x hx => (h.int x hx).trans (h'.int x hx), fun b hb => (h.bool b hb).trans (h'.bool b hb)⟩

theorem agree_setInt {v : Int} (hx : T.declaresInt x = false) : T.Agree ν (ν.setInt x v) := by
  refine ⟨fun y hy => ?_, fun _ _ => rfl⟩
  have hne : y ≠ x := by rintro rfl; rw [hx] at hy; cases hy
  exact (Function.update_of_ne hne _ _).symm

theorem agree_setBool {v : Bool} (hb : T.declaresBool b = false) : T.Agree ν (ν.setBool b v) := by
  refine ⟨fun _ _ => rfl, fun y hy => ?_⟩
  have hne : y ≠ b := by rintro rfl; rw [hb] at hy; cases hy
  exact (Function.update_of_ne hne _ _).symm

theorem Agree.admits (h : T.Agree ν μ) (hν : T.Admits ν) : T.Admits μ := by
  intro x d hd
  rw [← h.int x (declaresInt_iff.mpr ⟨d, hd⟩)]
  exact hν x d hd

theorem Agree.sum_eq (h : T.Agree ν μ) (hts : T.DeclaresTerms ts) : ν.sum ts = μ.sum ts :=
  Valuation.sum_congr fun t ht => h.int t.var (hts t ht).1

theorem Respects.and (hR : T.Respects R) (hS : T.Respects S) : T.Respects fun ν => R ν ∧ S ν :=
  fun ν μ h hν => ⟨hR ν μ h hν.1, hS ν μ h hν.2⟩

/-- **Constraints over declared variables do not depend on others.** -/
theorem respects_holds (hc : T.Declares c) : T.Respects c.Holds := by
  rintro ν μ h (hsum | ⟨r, hr, hlit⟩)
  · exact Or.inl (by rwa [← h.sum_eq hc.terms])
  · refine Or.inr ⟨r, hr, ?_⟩
    rw [← hlit]
    unfold Valuation.lit
    rw [show r.lit.var = r.var from rfl, h.bool _ (hc.reification r hr)]

/-! ### Checks -/

theorem requireTerms_eq_ok_iff : T.requireTerms ts = .ok () ↔ T.DeclaresTerms ts := by
  unfold requireTerms
  rw [List.forM_eq_ok_iff]
  refine forall₂_congr fun t _ => ?_
  split_ifs with h1 h2
  · rw [Bool.not_eq_true'] at h1
    simp [h1]
  · simp [h2]
  · rw [Bool.not_eq_true', Bool.not_eq_false] at h1
    simp [h1, h2]

theorem requireBool_eq_ok_iff : T.requireBool b = .ok () ↔ T.declaresBool b = true := by
  unfold requireBool
  split_ifs with h <;> simp [h]

theorem requireInt_eq_ok_iff : T.requireInt x = .ok () ↔ T.declaresInt x = true := by
  unfold requireInt
  split_ifs with h <;> simp [h]

end VariableTable

end ThresholdEncoding
