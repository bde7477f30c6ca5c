import ThresholdEncoding.Proofs.Instance.Build
import ThresholdEncoding.Proofs.VariableTable

/-!
# Reducing properties to larger instances

An instance grows by declarations and constraints. A property `R` of valuations of the smaller
instance is *reduced* to a property `S` over the larger one if `R` holds just when the introduced
variables can be given values under which the new constraints and `S` hold. Reductions compose, so
what a computation expresses follows from its steps.

* `Instance.Sound`: domains are valid, and constraints are about declared variables.
* `Instance.Reduces`, `Reduces.trans`: reductions and their composition.
* `reduces_push`, `reduces_addInt`, `reduces_addBool`: the steps.
-/

namespace ThresholdEncoding.Instance

/-- One instance is another one with more variables and constraints. -/
structure Extends (i j : Instance) : Prop where
  table : i.table.Extends j.table
  constraints : i.constraints <+: j.constraints
  options : j.options = i.options

/-- All domains are valid, and all constraints are about declared variables. -/
structure Sound (i : Instance) : Prop where
  domains : i.table.Valid
  constraints : ∀ c ∈ i.constraints, i.table.Declares c

/-- The constraints that a larger instance has in addition. -/
def added (i j : Instance) : List LinearConstraint := j.constraints.drop i.constraints.length

/-- The property `R` holds of a valuation of `i` just when introduced variables can be given values
of their domains under which the added constraints and `S` hold. -/
def Expresses (i j : Instance) (R S : Valuation → Prop) : Prop :=
  ∀ ν, i.table.Admits ν → (R ν ↔ ∃ μ, i.table.Agree ν μ ∧ j.table.Admits μ ∧
    (∀ c ∈ i.added j, c.Holds μ) ∧ S μ)

/-- The larger instance is sound if the smaller one is, declares no further variables as given, and,
if all domains are closed, expresses the property. -/
structure Reduces (i j : Instance) (R S : Valuation → Prop) : Prop where
  extends_ : i.Extends j
  sound : j.Sound
  closed : i.table.Closed → j.table.Closed
  givenInt : ∀ x, x.introduced = false → j.table.declaresInt x = true → i.table.declaresInt x = true
  givenBool : ∀ b, b.introduced = false → j.table.declaresBool b = true →
    i.table.declaresBool b = true
  expresses : i.table.Closed → i.Expresses j R S

variable {i j k : Instance} {R R' S U : Valuation → Prop} {c : LinearConstraint} {d : Domain}

/-! ### Extensions -/

theorem Extends.refl (i : Instance) : i.Extends i := ⟨.refl _, List.prefix_refl _, rfl⟩

theorem Extends.trans (h : i.Extends j) (h' : j.Extends k) : i.Extends k :=
  ⟨h.table.trans h'.table, h.constraints.trans h'.constraints, h'.options.trans h.options⟩

theorem extends_push : i.Extends (i.push c) := ⟨.refl _, List.prefix_append _ _, rfl⟩

theorem extends_addInt {introduced : Bool} : i.Extends (i.addInt d introduced) :=
  ⟨VariableTable.extends_addInt, List.prefix_refl _, rfl⟩

theorem extends_addBool {introduced : Bool} : i.Extends (i.addBool introduced) :=
  ⟨VariableTable.extends_addBool, List.prefix_refl _, rfl⟩

theorem Extends.added_eq (h : i.Extends j) : i.constraints ++ i.added j = j.constraints := by
  obtain ⟨l, hl⟩ := h.constraints
  unfold added
  rw [← hl, List.drop_left]

theorem Extends.added_append (h : i.Extends j) (h' : j.Extends k) :
    i.added k = i.added j ++ j.added k := by
  have := (h.trans h').added_eq
  rw [← h'.added_eq, ← h.added_eq, List.append_assoc] at this
  exact List.append_cancel_left this

@[simp] theorem added_push : i.added (i.push c) = [c] := by
  unfold added push
  simp

@[simp] theorem added_addInt {introduced : Bool} : i.added (i.addInt d introduced) = [] := by
  unfold added addInt
  simp

@[simp] theorem added_addBool {introduced : Bool} : i.added (i.addBool introduced) = [] := by
  unfold added addBool
  simp

/-! ### Sound instances -/

theorem Sound.push (hi : i.Sound) (hc : i.table.Declares c) : (i.push c).Sound where
  domains := hi.domains
  constraints := by
    intro c' hc'
    rcases List.mem_append.mp hc' with h | h
    · exact hi.constraints c' h
    · rw [List.mem_singleton.mp h]; exact hc

theorem Sound.addInt (hi : i.Sound) (hd : d.Valid) (introduced : Bool) :
    (i.addInt d introduced).Sound where
  domains := hi.domains.addInt hd
  constraints := fun c hc => VariableTable.extends_addInt.declares (hi.constraints c hc)

theorem Sound.addBool (hi : i.Sound) (introduced : Bool) : (i.addBool introduced).Sound where
  domains := hi.domains
  constraints := fun c hc => VariableTable.extends_addBool.declares (hi.constraints c hc)

/-! ### Reductions -/

/-- **Reductions compose.** -/
theorem Reduces.trans (h : i.Reduces j R S) (h' : j.Reduces k S U) : i.Reduces k R U where
  extends_ := h.extends_.trans h'.extends_
  sound := h'.sound
  closed := fun hc => h'.closed (h.closed hc)
  givenInt := fun x hx hd => h.givenInt x hx (h'.givenInt x hx hd)
  givenBool := fun b hb hd => h.givenBool b hb (h'.givenBool b hb hd)
  expresses := by
    intro hc ν hν
    rw [h.extends_.added_append h'.extends_]
    have h1 := h.expresses hc
    have h2 := h'.expresses (h.closed hc)
    have hdecl : ∀ c ∈ i.added j, j.table.Declares c := fun c hcj =>
      h.sound.constraints c (by rw [← h.extends_.added_eq]; exact List.mem_append_right _ hcj)
    constructor
    · intro hR
      obtain ⟨μ, hνμ, hμ, hholds, hS⟩ := (h1 ν hν).mp hR
      obtain ⟨ρ, hμρ, hρ, hholds', hU⟩ := (h2 μ hμ).mp hS
      refine ⟨ρ, hνμ.trans (h.extends_.table.agree hμρ), hρ, ?_, hU⟩
      intro c hcm
      rcases List.mem_append.mp hcm with hc' | hc'
      · exact VariableTable.respects_holds (hdecl c hc') μ ρ hμρ (hholds c hc')
      · exact hholds' c hc'
    · rintro ⟨ρ, hνρ, hρ, hholds, hU⟩
      have hρj := h'.extends_.table.admits hρ
      have hS : S ρ := (h2 ρ hρj).mpr
        ⟨ρ, .refl ρ, hρ, fun c hc' => hholds c (List.mem_append_right _ hc'), hU⟩
      exact (h1 ν hν).mpr
        ⟨ρ, hνρ, hρj, fun c hc' => hholds c (List.mem_append_left _ hc'), hS⟩

theorem Reduces.congr (h : i.Reduces j R S)
    (hR : i.table.Closed → ∀ ν, i.table.Admits ν → (R' ν ↔ R ν)) : i.Reduces j R' S :=
  { h with expresses := fun hc ν hν => (hR hc ν hν).trans (h.expresses hc ν hν) }

/-- What depends on old variables only can be asked for before or after. -/
theorem Reduces.frame (h : i.Reduces j R fun _ => True) (hS : i.table.Respects S) :
    i.Reduces j (fun ν => R ν ∧ S ν) S where
  extends_ := h.extends_
  sound := h.sound
  closed := h.closed
  givenInt := h.givenInt
  givenBool := h.givenBool
  expresses := by
    intro hc ν hν
    refine (and_congr_left fun _ => h.expresses hc ν hν).trans ?_
    constructor
    · rintro ⟨⟨μ, hνμ, hμ, hholds, -⟩, hS'⟩; exact ⟨μ, hνμ, hμ, hholds, hS ν μ hνμ hS'⟩
    · rintro ⟨μ, hνμ, hμ, hholds, hS'⟩
      exact ⟨⟨μ, hνμ, hμ, hholds, trivial⟩, hS μ ν hνμ.symm hS'⟩

/-- One computation after another one expresses both properties. -/
theorem Reduces.seq (h : i.Reduces j R fun _ => True) (h' : j.Reduces k S fun _ => True)
    (hS : i.table.Respects S) : i.Reduces k (fun ν => R ν ∧ S ν) fun _ => True :=
  (h.frame hS).trans h'

theorem Reduces.refl (hi : i.Sound) : i.Reduces i (fun _ => True) fun _ => True where
  extends_ := .refl i
  sound := hi
  closed := id
  givenInt := fun _ _ => id
  givenBool := fun _ _ => id
  expresses := by
    intro _ ν hν
    have hnone : i.added i = [] := by unfold added; simp
    exact ⟨fun _ => ⟨ν, .refl ν, hν, by simp [hnone], trivial⟩, fun _ => trivial⟩

/-- An appended constraint expresses itself. -/
theorem reduces_push (hi : i.Sound) (hc : i.table.Declares c) :
    i.Reduces (i.push c) c.Holds fun _ => True where
  extends_ := extends_push
  sound := hi.push hc
  closed := id
  givenInt := fun _ _ => id
  givenBool := fun _ _ => id
  expresses := by
    intro _ ν hν
    rw [added_push]
    constructor
    · exact fun h => ⟨ν, .refl ν, hν, by simpa using h, trivial⟩
    · rintro ⟨μ, hνμ, -, hholds, -⟩
      exact VariableTable.respects_holds hc μ ν hνμ.symm (hholds c (by simp))

/-- An introduced integer variable has some value of its domain. -/
theorem reduces_addInt (hi : i.Sound) (hd : d.Valid) (hc : i.table.Closed → d.isOpen = false)
    (hS : (i.addInt d true).table.Respects S) : i.Reduces (i.addInt d true)
      (fun ν => ∃ v, d.Admits v ∧ S (ν.setInt (i.table.nextInt true) v)) S where
  extends_ := extends_addInt
  sound := hi.addInt hd true
  closed := fun h => h.addInt (hc h)
  givenInt := by
    intro x hx hdecl
    rcases VariableTable.declaresInt_addInt_iff.mp hdecl with h | rfl
    · exact h
    · cases hx
  givenBool := fun _ _ => id
  expresses := by
    intro _ ν hν
    rw [added_addInt]
    have hfresh := VariableTable.declaresInt_nextInt i.table true
    constructor
    · rintro ⟨v, hv, h⟩
      have hagree := VariableTable.agree_setInt (ν := ν) (v := v) hfresh
      refine ⟨_, hagree, ?_, by simp, h⟩
      refine VariableTable.admits_addInt_iff.mpr ⟨hagree.admits hν, ?_⟩
      simpa [Valuation.setInt] using hv
    · rintro ⟨μ, hνμ, hμ, -, h⟩
      refine ⟨_, (VariableTable.admits_addInt_iff.mp hμ).2, hS μ _ ⟨fun y hy => ?_, ?_⟩ h⟩
      · by_cases hy' : y = i.table.nextInt true
        · subst hy'; simp [Valuation.setInt]
        · have hyi := (VariableTable.declaresInt_addInt_iff.mp hy).resolve_right hy'
          simp [Valuation.setInt, hy', hνμ.int y hyi]
      · exact fun b hb => (hνμ.bool b hb).symm

/-- An introduced boolean variable has some value. -/
theorem reduces_addBool (hi : i.Sound) (hS : (i.addBool true).table.Respects S) :
    i.Reduces (i.addBool true) (fun ν => ∃ v, S (ν.setBool (i.table.nextBool true) v)) S where
  extends_ := extends_addBool
  sound := hi.addBool true
  closed := id
  givenInt := fun _ _ => id
  givenBool := by
    intro b hb hdecl
    rcases VariableTable.declaresBool_addBool_iff.mp hdecl with h | rfl
    · exact h
    · cases hb
  expresses := by
    intro _ ν hν
    rw [added_addBool]
    have hfresh := VariableTable.declaresBool_nextBool i.table true
    constructor
    · rintro ⟨v, h⟩
      have hagree := VariableTable.agree_setBool (ν := ν) (v := v) hfresh
      exact ⟨_, hagree, hagree.admits hν, by simp, h⟩
    · rintro ⟨μ, hνμ, hμ, -, h⟩
      refine ⟨μ.bool (i.table.nextBool true), hS μ _ ⟨fun y hy => ?_, fun y hy => ?_⟩ h⟩
      · exact (hνμ.int y hy).symm
      · by_cases hy' : y = i.table.nextBool true
        · subst hy'; simp [Valuation.setBool]
        · have hyi := (VariableTable.declaresBool_addBool_iff.mp hy).resolve_right hy'
          simp [Valuation.setBool, hy', hνμ.bool y hyi]

end ThresholdEncoding.Instance
