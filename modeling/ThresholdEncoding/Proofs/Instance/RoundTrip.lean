import ThresholdEncoding.Proofs.Instance.Coherence

/-!
# Records of instances, there and back

A record describes an instance: its variables make up a table, and everything else is kept as it is.
Reading a record yields just the described instance if the record is *well formed*, and fails
otherwise. Both ways of the round trip follow, as the records of reachable instances are well formed.

* `Record.table`, `Record.described`: what a record describes.
* `Record.WellFormed`: which records can be read.
* `yields_forM_restoreInt_iff`, `yields_forM_append_iff`: what the stages of reading do.
* `Record.toInstance_eq_ok_iff`: the result is the described instance.
* `record_round_trip`: both ways.
-/

namespace ThresholdEncoding

namespace Instance

/-- The table that a record describes. -/
def Record.table (r : Record) : VariableTable where
  ints := r.domains.map fun p => ⟨p.2, p.1.introduced⟩
  bools := r.bools.map (·.introduced)

/-- The instance that a record describes. Open domains are known even if the record does not say so. -/
def Record.described (r : Record) : Instance where
  name := r.name
  table := r.table
  constraints := r.constraints
  clauses := r.clauses
  links := r.links
  objective := r.objective
  unbounded := r.unbounded || r.domains.any (·.2.isOpen)

/-- The variables are listed by number, their domains have values, and everything else is about
listed variables. -/
structure Record.WellFormed (r : Record) : Prop where
  ints : r.domains.map (·.1.index) = List.range r.domains.length
  bools : r.bools.map (·.index) = List.range r.bools.length
  domains : ∀ p ∈ r.domains, p.2.requireValues = .ok ()
  refers : r.described.RefersTo r.table

/-- The instance with all variables of a list declared. -/
def addInts (i : Instance) (ps : List (IntVar × Domain)) : Instance :=
  { i with
    table := { i.table with ints := i.table.ints ++ ps.map fun p => ⟨p.2, p.1.introduced⟩ }
    unbounded := i.unbounded || ps.any (·.2.isOpen) }

/-- The instance with all boolean variables of a list declared. -/
def addBools (i : Instance) (bs : List BoolVar) : Instance :=
  { i with table := { i.table with bools := i.table.bools ++ bs.map (·.introduced) } }

variable {i : Instance}

theorem addInts_cons {p : IntVar × Domain} {ps : List (IntVar × Domain)} :
    i.addInts (p :: ps) = (i.addInt p.2 p.1.introduced).addInts ps := by
  simp [addInts, addInt, VariableTable.addInt, Bool.or_assoc]

theorem addBools_cons {b : BoolVar} {bs : List BoolVar} :
    i.addBools (b :: bs) = (i.addBool b.introduced).addBools bs := by
  simp [addBools, addBool, VariableTable.addBool]

end Instance

namespace Build

variable {α : Type} {i j k : Instance}

/-! ### Declarations -/

theorem yields_restoreInt_iff {x : IntVar} {d : Domain} : (restoreInt x d).Yields i () j ↔
    x.index = i.table.ints.length ∧ d.requireValues = .ok () ∧ j = i.addInt d x.introduced := by
  unfold restoreInt
  rw [yields_require_bind_iff, yields_addInt_bind_iff, yields_pure_iff]
  split_ifs with h <;> simp [h]

theorem yields_restoreBool_iff {b : BoolVar} : (restoreBool b).Yields i () j ↔
    b.index = i.table.bools.length ∧ j = i.addBool b.introduced := by
  unfold restoreBool
  rw [yields_require_bind_iff, yields_addBool_bind_iff, yields_pure_iff]
  split_ifs with h <;> simp [h]

/-- **Integer variables** are declared if they are listed from the next number on and their domains
have values. -/
theorem yields_forM_restoreInt_iff {ps : List (IntVar × Domain)} :
    (ps.forM fun (x, d) => restoreInt x d).Yields i () j ↔
      ps.map (·.1.index) = List.range' i.table.ints.length ps.length ∧
      (∀ p ∈ ps, p.2.requireValues = .ok ()) ∧ j = i.addInts ps := by
  induction ps generalizing i with
  | nil => simp [Instance.addInts]
  | cons p ps ih =>
    have hlen : (i.addInt p.2 p.1.introduced).table.ints.length = i.table.ints.length + 1 := by
      simp [Instance.addInt, VariableTable.addInt]
    rw [yields_forM_cons_iff]
    simp only [yields_restoreInt_iff, ih, List.map_cons, List.length_cons, List.range'_succ,
      List.cons.injEq, List.forall_mem_cons, Instance.addInts_cons]
    constructor
    · rintro ⟨_, ⟨h1, h2, rfl⟩, h3, h4, h5⟩
      exact ⟨⟨h1, hlen ▸ h3⟩, ⟨h2, h4⟩, h5⟩
    · rintro ⟨⟨h1, h3⟩, ⟨h2, h4⟩, h5⟩
      exact ⟨_, ⟨h1, h2, rfl⟩, hlen ▸ h3, h4, h5⟩

/-- **Boolean variables** are declared if they are listed from the next number on. -/
theorem yields_forM_restoreBool_iff {bs : List BoolVar} :
    (bs.forM restoreBool).Yields i () j ↔
      bs.map (·.index) = List.range' i.table.bools.length bs.length ∧ j = i.addBools bs := by
  induction bs generalizing i with
  | nil => simp [Instance.addBools]
  | cons b bs ih =>
    have hlen : (i.addBool b.introduced).table.bools.length = i.table.bools.length + 1 := by
      simp [Instance.addBool, VariableTable.addBool]
    rw [yields_forM_cons_iff]
    simp only [yields_restoreBool_iff, ih, List.map_cons, List.length_cons, List.range'_succ,
      List.cons.injEq, Instance.addBools_cons]
    constructor
    · rintro ⟨_, ⟨h1, rfl⟩, h2, h3⟩
      exact ⟨⟨h1, hlen ▸ h2⟩, h3⟩
    · rintro ⟨⟨h1, h2⟩, h3⟩
      exact ⟨_, ⟨h1, rfl⟩, hlen ▸ h2, h3⟩

/-! ### What is about declared variables -/

/-- **A stage that checks and appends.** If each element is checked against the table, which stays
as it is, all elements are appended just when all of them pass. -/
theorem yields_forM_append_iff {g : α → Build Unit} {P : VariableTable → α → Prop}
    {F : Instance → List α → Instance} (hnil : ∀ i, F i [] = i)
    (hcons : ∀ i a l, F i (a :: l) = F (F i [a]) l) (htable : ∀ i a, (F i [a]).table = i.table)
    (hg : ∀ a i j, (g a).Yields i () j ↔ P i.table a ∧ j = F i [a]) {l : List α} :
    (l.forM g).Yields i () j ↔ (∀ a ∈ l, P i.table a) ∧ j = F i l := by
  induction l generalizing i with
  | nil => simp [hnil]
  | cons a l ih =>
    rw [yields_forM_cons_iff]
    simp only [hg, ih, List.forall_mem_cons, hcons i a l]
    constructor
    · rintro ⟨_, ⟨h1, rfl⟩, h2, h3⟩
      exact ⟨⟨h1, htable i a ▸ h2⟩, h3⟩
    · rintro ⟨⟨h1, h2⟩, h3⟩
      exact ⟨_, ⟨h1, rfl⟩, (htable i a).symm ▸ h2, h3⟩

theorem yields_restoreConstraint_iff {c : LinearConstraint} :
    (restoreConstraint c).Yields i () j ↔ i.table.Declares c ∧ j = i.push c := by
  obtain ⟨ts, bound, r⟩ := c
  unfold restoreConstraint
  rw [yields_require_bind_iff, VariableTable.requireTerms_eq_ok_iff]
  cases r with
  | none =>
    refine (and_congr_right fun _ => yields_pure_iff).trans ⟨?_, ?_⟩
    · rintro ⟨h, -, rfl⟩; exact ⟨⟨h, by simp⟩, rfl⟩
    · rintro ⟨h, rfl⟩; exact ⟨h.terms, rfl, rfl⟩
  | some r =>
    simp only [yields_require_bind_iff, VariableTable.requireBool_eq_ok_iff, yields_push_bind_iff,
      yields_pure_iff, true_and, ← and_assoc]
    refine and_congr_left fun _ => ⟨fun h => ⟨h.1, by simpa using h.2⟩, fun h => ?_⟩
    exact ⟨h.terms, h.reification r rfl⟩

theorem yields_clause_iff {lits : BoolClause} {n : Nat} : (clause lits).Yields i n j ↔
    (∀ l ∈ lits, i.table.declaresBool l.var = true) ∧ n = i.clauses.length ∧
      j = { i with clauses := i.clauses ++ [lits] } := by
  unfold clause
  rw [yields_require_bind_iff, List.forM_eq_ok_iff, yields_modifyGet_iff]
  simp only [VariableTable.requireBool_eq_ok_iff]

theorem yields_link_iff {b : BoolAtom} {x : IntVar} {n : Nat} : (link b x).Yields i n j ↔
    ((∀ v, b = .var v → i.table.declaresBool v = true) ∧ i.table.declaresInt x = true) ∧
      n = i.links.length ∧ j = { i with links := i.links ++ [⟨b, x⟩] } := by
  cases b with
  | var v =>
    show (require _ >>= fun _ => require _ >>= fun _ => modifyGet _).Yields i n j ↔ _
    simp only [yields_require_bind_iff, yields_modifyGet_iff, VariableTable.requireBool_eq_ok_iff,
      VariableTable.requireInt_eq_ok_iff, BoolAtom.var.injEq, forall_eq', and_assoc]
  | const value =>
    show (require _ >>= fun _ => modifyGet _).Yields i n j ↔ _
    simp only [yields_require_bind_iff, yields_modifyGet_iff, VariableTable.requireInt_eq_ok_iff,
      reduceCtorEq, false_imp_iff, implies_true, true_and]

theorem yields_objectiveTerm_iff {t : Term} : (objectiveTerm t).Yields i () j ↔
    i.table.declaresInt t.var = true ∧ j = { i with objective := i.objective.add t } := by
  unfold objectiveTerm
  rw [yields_require_bind_iff, yields_modify_iff, VariableTable.requireInt_eq_ok_iff]

/-! ### All stages -/

open Instance (Record)

theorem yields_forM_restoreConstraint_iff {cs : List LinearConstraint} :
    (cs.forM restoreConstraint).Yields i () j ↔
      (∀ c ∈ cs, i.table.Declares c) ∧ j = { i with constraints := i.constraints ++ cs } :=
  yields_forM_append_iff (F := fun i cs => { i with constraints := i.constraints ++ cs })
    (by simp) (by simp) (by simp) fun _ _ _ => yields_restoreConstraint_iff

theorem yields_forM_clause_iff {cs : List BoolClause} :
    (cs.forM fun lits => (clause lits).forget).Yields i () j ↔
      (∀ lits ∈ cs, ∀ l ∈ lits, i.table.declaresBool l.var = true) ∧
        j = { i with clauses := i.clauses ++ cs } :=
  yields_forM_append_iff (F := fun i cs => { i with clauses := i.clauses ++ cs })
    (P := fun T lits => ∀ l ∈ lits, T.declaresBool l.var = true)
    (by simp) (by simp) (by simp) fun _ _ _ => by simp [yields_forget_iff, yields_clause_iff]

theorem yields_forM_link_iff {ls : List Link} :
    (ls.forM fun l => (link l.boolean l.int).forget).Yields i () j ↔
      (∀ l ∈ ls, (∀ b, l.boolean = .var b → i.table.declaresBool b = true) ∧
        i.table.declaresInt l.int = true) ∧ j = { i with links := i.links ++ ls } :=
  yields_forM_append_iff (F := fun i ls => { i with links := i.links ++ ls })
    (P := fun T l => (∀ b, l.boolean = .var b → T.declaresBool b = true) ∧
      T.declaresInt l.int = true)
    (by simp) (by simp) (by simp) fun _ _ _ => by simp [yields_forget_iff, yields_link_iff]

theorem yields_forM_objectiveTerm_iff {ts : List Term} :
    (ts.forM objectiveTerm).Yields i () j ↔ (∀ t ∈ ts, i.table.declaresInt t.var = true) ∧
      j = { i with objective := { i.objective with terms := i.objective.terms ++ ts } } :=
  yields_forM_append_iff (P := fun T t => T.declaresInt t.var = true)
    (F := fun i ts => { i with objective := { i.objective with terms := i.objective.terms ++ ts } })
    (by simp) (by simp) (by simp) fun _ _ _ => yields_objectiveTerm_iff

theorem yields_assumeUnbounded_if_iff {b : Bool} :
    (if b then assumeUnbounded else pure () : Build Unit).Yields i () j ↔
      j = { i with unbounded := i.unbounded || b } := by
  cases b with
  | false => simp
  | true => simp [assumeUnbounded, yields_modify_iff]

/-- **Reading a record** yields the described instance if the record is well formed, and nothing
otherwise. -/
theorem yields_restore_iff {r : Record} :
    (restore r).Yields {} () j ↔ r.WellFormed ∧ j = r.described := by
  show (modify _ >>= fun _ => (r.domains.forM fun (x, d) => restoreInt x d) >>= fun _ =>
    r.bools.forM restoreBool >>= fun _ => r.constraints.forM restoreConstraint >>= fun _ =>
    (r.clauses.forM fun lits => (clause lits).forget) >>= fun _ =>
    (r.links.forM fun l => (link l.boolean l.int).forget) >>= fun _ =>
    r.objective.terms.forM objectiveTerm >>= fun _ => modify _ >>= fun _ =>
    (if r.unbounded then assumeUnbounded else pure ())).Yields {} () j ↔ _
  let i := (({ name := r.name } : Instance).addInts r.domains).addBools r.bools
  simp only [yields_stage_iff, yields_forM_restoreInt_iff, yields_forM_restoreBool_iff,
    yields_forM_restoreConstraint_iff, yields_forM_clause_iff, yields_forM_link_iff,
    yields_forM_objectiveTerm_iff, yields_modify_iff, yields_assumeUnbounded_if_iff, and_assoc,
    exists_and_left, exists_eq_left]
  have hdescribed : r.described = { i with
      constraints := i.constraints ++ r.constraints
      clauses := i.clauses ++ r.clauses
      links := i.links ++ r.links
      objective := ⟨i.objective.terms ++ r.objective.terms, r.objective.strategy⟩
      unbounded := i.unbounded || r.unbounded } := by
    simp [Record.described, Record.table, i, Instance.addInts, Instance.addBools, Bool.or_comm]
  rw [hdescribed]
  constructor
  · rintro ⟨hints, hdomains, hbools, hcs, hclauses, hlinks, hterms, hj⟩
    exact ⟨⟨hints.trans List.range_eq_range'.symm, hbools.trans List.range_eq_range'.symm, hdomains,
      ⟨hcs, hclauses, hlinks, hterms⟩⟩, hj⟩
  · rintro ⟨hr, hj⟩
    exact ⟨hr.ints.trans List.range_eq_range', hr.domains, hr.bools.trans List.range_eq_range',
      hr.refers.constraints, hr.refers.clauses, hr.refers.links, hr.refers.objective, hj⟩

end Build

namespace Instance

variable {r : Record} {i : Instance}

/-- **The result of reading** is the described instance. -/
theorem Record.toInstance_eq_ok_iff : r.toInstance = .ok i ↔ r.WellFormed ∧ i = r.described := by
  rw [Record.toInstance_eq, Except.map_eq_ok_iff, ← Build.yields_restore_iff]
  exact ⟨fun ⟨_, h1, h2⟩ => ⟨h1, h2⟩, fun ⟨h1, h2⟩ => ⟨(), h1, h2⟩⟩

/-! ### Writing -/

/-- What is listed by number comes back from the data that go with each number. -/
theorem zipIdx_relist {α β : Type} {f : α → β} {index : α → Nat} {g : β × Nat → α}
    (hg : ∀ a, g (f a, index a) = a) {l : List α} {n : Nat}
    (h : l.map index = List.range' n l.length) : ((l.map f).zipIdx n).map g = l := by
  induction l generalizing n with
  | nil => rfl
  | cons a l ih =>
    simp only [List.map_cons, List.length_cons, List.range'_succ, List.cons.injEq] at h
    obtain ⟨rfl, h⟩ := h
    simp only [List.map_cons, List.zipIdx_cons, hg, ih h]

/-- The record of a described instance is the given one, apart from what is known about open
domains. -/
theorem Record.WellFormed.toRecord_described (hr : r.WellFormed) :
    r.described.toRecord = { r with unbounded := r.unbounded || r.domains.any (·.2.isOpen) } := by
  have h1 : r.table.intVars = r.domains :=
    zipIdx_relist (fun _ => rfl) (hr.ints.trans List.range_eq_range')
  have h2 : r.table.boolVars = r.bools :=
    zipIdx_relist (fun _ => rfl) (hr.bools.trans List.range_eq_range')
  rw [toRecord, Record.described, h1, h2]

theorem map_intVars {T : VariableTable} :
    T.intVars.map (fun p => (⟨p.2, p.1.introduced⟩ : IntDeclaration)) = T.ints := by
  rw [VariableTable.intVars, List.map_map]
  exact List.zipIdx_map_fst 0 _

theorem map_boolVars {T : VariableTable} : T.boolVars.map (·.introduced) = T.bools := by
  rw [VariableTable.boolVars, List.map_map]
  exact List.zipIdx_map_fst 0 _

theorem table_toRecord : i.toRecord.table = i.table :=
  congrArg₂ VariableTable.mk map_intVars map_boolVars

/-- What holds of all declarations holds of all recorded domains. -/
theorem forall_mem_intVars {T : VariableTable} {P : Domain → Prop} (h : ∀ e ∈ T.ints, P e.domain) :
    ∀ p ∈ T.intVars, P p.2 := fun p hp =>
  h ⟨p.2, p.1.introduced⟩ (map_intVars (T := T) ▸ List.mem_map_of_mem hp)

theorem Coherent.wellFormed_toRecord (hi : i.Coherent) : i.toRecord.WellFormed where
  ints := by
    show i.table.intVars.map _ = List.range i.table.intVars.length
    rw [VariableTable.intVars, List.map_map, List.length_map, List.length_zipIdx,
      List.range_eq_range']
    exact List.zipIdx_map_snd 0 _
  bools := by
    show i.table.boolVars.map _ = List.range i.table.boolVars.length
    rw [VariableTable.boolVars, List.map_map, List.length_map, List.length_zipIdx,
      List.range_eq_range']
    exact List.zipIdx_map_snd 0 _
  domains := forall_mem_intVars (T := i.table) (P := (·.requireValues = .ok ())) hi.domains
  refers := by
    rw [table_toRecord]
    exact { hi.refers with }

/-- The record of a coherent instance describes the instance, apart from its options. -/
theorem Coherent.described_toRecord (hi : i.Coherent) :
    i.toRecord.described = { i with options := {} } := by
  have hopen : (i.unbounded || i.table.intVars.any (·.2.isOpen)) = i.unbounded := by
    cases hu : i.unbounded with
    | true => rfl
    | false =>
      have hclosed := forall_mem_intVars (T := i.table) (P := (·.isOpen = false)) fun e he =>
        Bool.eq_false_iff.mpr fun hopen => by simp [hi.unbounded e he hopen] at hu
      simpa using hclosed
  show Instance.mk _ i.toRecord.table _ _ _ _ _ (i.unbounded || i.table.intVars.any _) = _
  rw [table_toRecord, hopen]
  rfl

end Instance

end ThresholdEncoding
