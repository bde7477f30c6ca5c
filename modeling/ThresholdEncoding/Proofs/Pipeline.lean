import ThresholdEncoding.Proofs.Encoder.Equivalence
import ThresholdEncoding.Proofs.Instance.Meaning

/-!
# From relations to clauses

A problem is declared and related by requests, brought into canonical form with introduced
variables, and encoded. In the end a valuation of the given variables satisfies all requested
relations just when the introduced variables can be given values that satisfy all encodings.

* `Instance.Models`, `models_perform`, `models_requests`: the constraints of an instance express all
  requests.
* `encodeEach_correct`: so do their encodings.
-/

namespace ThresholdEncoding

variable {T T' : VariableTable} {i j k : Instance} {r : Request} {rs : List Request}
variable {ν μ : Valuation} {ts : List Term} {M R S : Valuation → Prop} {d : Domain}

/-! ### Given variables -/

namespace VariableTable

/-- The valuation gives every given integer variable a value of its domain. -/
def AdmitsGiven (T : VariableTable) (ν : Valuation) : Prop :=
  ∀ x d, x.introduced = false → T.domain? x = some d → d.Admits (ν.int x)

/-- The valuations give the same values to given variables. -/
structure AgreeGiven (T : VariableTable) (ν μ : Valuation) : Prop where
  int : ∀ x, x.introduced = false → T.declaresInt x = true → ν.int x = μ.int x
  bool : ∀ b, b.introduced = false → T.declaresBool b = true → ν.bool b = μ.bool b

/-- A property of valuations that only depends on given variables. -/
def RespectsGiven (T : VariableTable) (R : Valuation → Prop) : Prop :=
  ∀ ν μ, T.AgreeGiven ν μ → R ν → R μ

theorem Extends.admitsGiven (h : T.Extends T') (hν : T'.AdmitsGiven ν) : T.AdmitsGiven ν :=
  fun x d hx hd => hν x d hx (h.domain? hd)

theorem Extends.agreeGiven (h : T.Extends T') (hν : T'.AgreeGiven ν μ) : T.AgreeGiven ν μ :=
  ⟨fun x hx hd => hν.int x hx (h.declaresInt hd), fun b hb hd => hν.bool b hb (h.declaresBool hd)⟩

theorem Extends.respectsGiven (h : T.Extends T') (hR : T.RespectsGiven R) : T'.RespectsGiven R :=
  fun ν μ hνμ => hR ν μ (h.agreeGiven hνμ)

theorem AgreeGiven.symm (h : T.AgreeGiven ν μ) : T.AgreeGiven μ ν :=
  ⟨fun x hx hd => (h.int x hx hd).symm, fun b hb hd => (h.bool b hb hd).symm⟩

theorem AgreeGiven.sum_eq (h : T.AgreeGiven ν μ) (hts : T.DeclaresTerms ts)
    (hgiven : ∀ t ∈ ts, t.var.introduced = false) : ν.sum ts = μ.sum ts :=
  Valuation.sum_congr fun t ht => h.int t.var (hgiven t ht) (hts t ht).1

theorem declaresTerms_neg_iff : T.DeclaresTerms (ts.map (- ·)) ↔ T.DeclaresTerms ts := by
  refine ⟨fun h t ht => ?_, DeclaresTerms.neg⟩
  obtain ⟨hvar, hweight⟩ := h (-t) (List.mem_map_of_mem ht)
  exact ⟨hvar, neg_ne_zero.mp hweight⟩

theorem respectsGiven_sum (hts : T.DeclaresTerms ts) (hgiven : ∀ t ∈ ts, t.var.introduced = false)
    (P : Int → Prop) : T.RespectsGiven fun ν => P (ν.sum ts) := by
  intro ν μ h hν
  rwa [← h.sum_eq hts hgiven]

theorem respectsGiven_lit {l : BoolLit} (hl : T.declaresBool l.var = true)
    (hgiven : l.var.introduced = false) : T.RespectsGiven fun ν => ν.lit l = true := by
  intro ν μ h hν
  unfold Valuation.lit at hν ⊢
  rwa [← h.bool l.var hgiven hl]

theorem RespectsGiven.or (hR : T.RespectsGiven R) (hS : T.RespectsGiven S) :
    T.RespectsGiven fun ν => R ν ∨ S ν :=
  fun ν μ h hν => hν.imp (hR ν μ h) (hS ν μ h)

theorem respectsGiven_pairwise {xs : List IntVar} (hxs : ∀ x ∈ xs, T.declaresInt x = true)
    (hgiven : ∀ x ∈ xs, x.introduced = false) :
    T.RespectsGiven fun ν => xs.Pairwise (ν.int · ≠ ν.int ·) := by
  intro ν μ h hν
  refine hν.imp_of_mem fun {x y} hx hy hne => ?_
  rwa [← h.int x (hgiven x hx) (hxs x hx), ← h.int y (hgiven y hy) (hxs y hy)]

end VariableTable

/-! ### Requests -/

namespace Request

/-- The request declares a variable with a closed domain, or relates given variables. -/
def Given : Request → Prop
  | declareInt d => d.WellFormed ∧ d.isOpen = false
  | declareBool => True
  | atLeast ts _ | atMost ts _ | greater ts _ | less ts _ | equal ts _ | different ts _ =>
    ∀ t ∈ ts, t.var.introduced = false
  | atLeastReified ts _ r | atMostReified ts _ r =>
    (∀ t ∈ ts, t.var.introduced = false) ∧ r.var.introduced = false
  | allDifferent xs => ∀ x ∈ xs, x.introduced = false
  | _ => False

/-- What a request for a relation of given variables means only depends on given variables. -/
theorem respectsGiven_means {x : Build Nat} {a : Nat} (hr : r.Given) (hx : r.adding? = some x)
    (h : x.Yields i a k) : i.table.RespectsGiven fun ν => r.Means ν := by
  cases r <;> cases hx
  case atLeast ts b =>
    obtain ⟨hts, -⟩ := Build.yields_atLeast_iff.mp h
    exact VariableTable.respectsGiven_sum hts hr (b ≤ ·)
  case atLeastReified ts b r =>
    obtain ⟨hts, hb, -⟩ := Build.yields_atLeastReified_iff.mp h
    exact (VariableTable.respectsGiven_sum hts hr.1 (b ≤ ·)).or
      (VariableTable.respectsGiven_lit hb hr.2)
  case atMost ts b =>
    obtain ⟨-, -, h'⟩ := Build.yields_atMost_iff.mp h
    obtain ⟨hneg, -⟩ := Build.yields_atLeast_iff.mp h'
    have hts := VariableTable.declaresTerms_neg_iff.mp hneg
    exact VariableTable.respectsGiven_sum hts hr (· ≤ b)
  case atMostReified ts b r =>
    obtain ⟨-, -, h'⟩ := Build.yields_atMostReified_iff.mp h
    obtain ⟨hneg, hb, -⟩ := Build.yields_atLeastReified_iff.mp h'
    have hts := VariableTable.declaresTerms_neg_iff.mp hneg
    exact (VariableTable.respectsGiven_sum hts hr.1 (· ≤ b)).or
      (VariableTable.respectsGiven_lit hb hr.2)
  case greater ts b =>
    obtain ⟨-, h'⟩ := Build.yields_greater_iff.mp h
    obtain ⟨hts, -⟩ := Build.yields_atLeast_iff.mp h'
    exact VariableTable.respectsGiven_sum hts hr (b < ·)
  case less ts b =>
    obtain ⟨-, -, h'⟩ := Build.yields_less_iff.mp h
    obtain ⟨hneg, -⟩ := Build.yields_atLeast_iff.mp h'
    have hts := VariableTable.declaresTerms_neg_iff.mp hneg
    exact VariableTable.respectsGiven_sum hts hr (· < b)
  case equal ts b =>
    obtain ⟨hts, -⟩ := Build.yields_equal_iff.mp h
    exact VariableTable.respectsGiven_sum hts hr (· = b)
  case different ts b =>
    obtain ⟨hts, -⟩ := Build.yields_different_iff.mp h
    exact VariableTable.respectsGiven_sum hts hr (· ≠ b)
  case allDifferent xs =>
    obtain ⟨-, hxs, -⟩ := Build.yields_allDifferent_iff.mp h
    exact VariableTable.respectsGiven_pairwise hxs hr

end Request

namespace Instance

/-- The constraints of an instance with closed domains express a property of given variables. -/
structure Models (i : Instance) (M : Valuation → Prop) : Prop where
  sound : i.Sound
  closed : i.table.Closed
  respects : i.table.RespectsGiven M
  expresses : ∀ ν, i.table.AdmitsGiven ν → (M ν ↔ ∃ μ, i.table.AgreeGiven ν μ ∧
    i.table.Admits μ ∧ ∀ c ∈ i.constraints, c.Holds μ)

theorem models_empty (options : InstanceOptions) : Models { options } fun _ => True where
  sound := sound_empty options
  closed := fun x d h => by simp [VariableTable.domain?] at h
  respects := fun _ _ _ _ => trivial
  expresses := fun ν _ => by
    refine ⟨fun _ => ⟨ν, ⟨fun _ _ _ => rfl, fun _ _ _ => rfl⟩, ?_, by simp⟩, fun _ => trivial⟩
    intro x d h
    simp [VariableTable.domain?] at h

/-- What has been expressed stays expressed, and a reduction adds what it expresses. -/
theorem Models.reduces (h : i.Models M) (hr : i.Reduces j R fun _ => True)
    (hR : i.table.RespectsGiven R) : j.Models fun ν => M ν ∧ R ν where
  sound := hr.sound
  closed := hr.closed h.closed
  respects := fun ν μ hνμ hν =>
    have hνμ' := hr.extends_.table.agreeGiven hνμ
    ⟨h.respects ν μ hνμ' hν.1, hR ν μ hνμ' hν.2⟩
  expresses := by
    intro ν hν
    rw [← hr.extends_.added_eq]
    have hexp := hr.expresses h.closed
    have hνi := h.expresses ν (hr.extends_.table.admitsGiven hν)
    constructor
    · rintro ⟨hM, hRν⟩
      obtain ⟨μ, hνμ, hμ, hholds⟩ := hνi.mp hM
      obtain ⟨ρ, hμρ, hρ, hadded, -⟩ := (hexp μ hμ).mp (hR ν μ hνμ hRν)
      refine ⟨ρ, ⟨fun x hx hd => ?_, fun b hb hd => ?_⟩, hρ, fun c hc => ?_⟩
      · have hdi := hr.givenInt x hx hd
        exact (hνμ.int x hx hdi).trans (hμρ.int x hdi)
      · have hdi := hr.givenBool b hb hd
        exact (hνμ.bool b hb hdi).trans (hμρ.bool b hdi)
      · rcases List.mem_append.mp hc with hc | hc
        · exact VariableTable.respects_holds (h.sound.constraints c hc) μ ρ hμρ (hholds c hc)
        · exact hadded c hc
    · rintro ⟨μ, hνμ, hμ, hholds⟩
      have hνμ' := hr.extends_.table.agreeGiven hνμ
      have hμi := hr.extends_.table.admits hμ
      refine ⟨hνi.mpr ⟨μ, hνμ', hμi, fun c hc => hholds c (List.mem_append_left _ hc)⟩, ?_⟩
      refine hR μ ν hνμ'.symm ((hexp μ hμi).mpr ⟨μ, .refl μ, hμ, fun c hc => ?_, trivial⟩)
      exact hholds c (List.mem_append_right _ hc)

theorem Models.addInt (h : i.Models M) (hd : d.Valid) (hc : d.isOpen = false) :
    (i.addInt d false).Models M where
  sound := h.sound.addInt hd false
  closed := h.closed.addInt hc
  respects := VariableTable.extends_addInt.respectsGiven h.respects
  expresses := by
    intro ν hν
    have hext : i.table.Extends (i.addInt d false).table := VariableTable.extends_addInt
    have hfresh := VariableTable.declaresInt_nextInt i.table false
    rw [h.expresses ν (hext.admitsGiven hν)]
    constructor
    · rintro ⟨μ, hνμ, hμ, hholds⟩
      have hagree := VariableTable.agree_setInt (ν := μ) (v := ν.int (i.table.nextInt false)) hfresh
      refine ⟨μ.setInt (i.table.nextInt false) (ν.int (i.table.nextInt false)),
        ⟨fun x hx hdx => ?_, hνμ.bool⟩, ?_, fun c hc => ?_⟩
      · rcases VariableTable.declaresInt_addInt_iff.mp hdx with hdx | rfl
        · exact (hνμ.int x hx hdx).trans (hagree.int x hdx)
        · simp [Valuation.setInt]
      · refine VariableTable.admits_addInt_iff.mpr ⟨hagree.admits hμ, ?_⟩
        have := hν (i.table.nextInt false) d rfl VariableTable.domain?_addInt_nextInt
        simpa [Valuation.setInt] using this
      · exact VariableTable.respects_holds (h.sound.constraints c hc) μ _ hagree (hholds c hc)
    · rintro ⟨μ, hνμ, hμ, hholds⟩
      exact ⟨μ, hext.agreeGiven hνμ, hext.admits hμ, hholds⟩

theorem Models.addBool (h : i.Models M) : (i.addBool false).Models M where
  sound := h.sound.addBool false
  closed := h.closed
  respects := VariableTable.extends_addBool.respectsGiven h.respects
  expresses := by
    intro ν hν
    have hext : i.table.Extends (i.addBool false).table := VariableTable.extends_addBool
    have hfresh := VariableTable.declaresBool_nextBool i.table false
    rw [h.expresses ν (hext.admitsGiven hν)]
    constructor
    · rintro ⟨μ, hνμ, hμ, hholds⟩
      have hagree := VariableTable.agree_setBool (ν := μ) (v := ν.bool (i.table.nextBool false))
        hfresh
      refine ⟨μ.setBool (i.table.nextBool false) (ν.bool (i.table.nextBool false)),
        ⟨hνμ.int, fun b hb hdb => ?_⟩, hagree.admits hμ, fun c hc => ?_⟩
      · rcases VariableTable.declaresBool_addBool_iff.mp hdb with hdb | rfl
        · exact (hνμ.bool b hb hdb).trans (hagree.bool b hdb)
        · simp [Valuation.setBool]
      · exact VariableTable.respects_holds (h.sound.constraints c hc) μ _ hagree (hholds c hc)
    · rintro ⟨μ, hνμ, hμ, hholds⟩
      exact ⟨μ, hext.agreeGiven hνμ, hμ, hholds⟩

/-- **A request adds what it means** to what the constraints express. -/
theorem models_perform (h : i.Models M) (hr : r.Given) (hrun : r.perform.Yields i () k) :
    k.Models fun ν => M ν ∧ r.Means ν := by
  cases hx : r.adding? with
  | some x =>
    rw [Request.perform_of_adding? hx] at hrun
    obtain ⟨a, ha⟩ := Build.yields_forget_iff.mp hrun
    exact h.reduces (Request.reduces_adding h.sound hx ha) (Request.respectsGiven_means hr hx ha)
  | none =>
    cases r with
    | declareInt d =>
      obtain ⟨y, hy⟩ := Build.yields_forget_iff.mp hrun
      obtain ⟨hv, -, rfl⟩ := Build.yields_addInt_iff.mp hy
      simpa [Request.Means] using h.addInt ⟨hr.1, hv⟩ hr.2
    | declareBool =>
      obtain ⟨b, hb⟩ := Build.yields_forget_iff.mp hrun
      obtain ⟨-, rfl⟩ := Build.yields_addBool_iff.mp hb
      simpa [Request.Means] using h.addBool
    | link | clause | objectiveTerm | giveName | assumeUnbounded | chooseStrategy => exact hr.elim
    | _ => cases hx

/-- **The constraints express all requests.** -/
theorem models_requests (h : i.Models M) (hrs : ∀ r ∈ rs, r.Given)
    (hrun : (rs.forM Request.perform).Yields i () k) :
    k.Models fun ν => M ν ∧ ∀ r ∈ rs, r.Means ν := by
  induction rs generalizing i M with
  | nil =>
    obtain ⟨-, rfl⟩ := Build.yields_pure_iff.mp hrun
    simpa using h
  | cons r rs ih =>
    obtain ⟨hr, hrs⟩ := List.forall_mem_cons.mp hrs
    replace hrun : (r.perform >>= fun _ => rs.forM Request.perform).Yields i () k := hrun
    obtain ⟨⟨⟩, j, h1, h2⟩ := Build.yields_bind_iff.mp hrun
    have hk := ih (models_perform h hr h1) hrs h2
    simpa only [List.forall_mem_cons, and_assoc] using hk

end Instance

/-! ### Encodings -/

namespace Encoder

variable {e : Encoder} {cs : List LinearConstraint} {encs : List Encoding}

theorem value_encodeEach : (e.encodeEach cs).value = cs.mapM fun c => (e.encode c).value := by
  unfold encodeEach
  simp only [LoggedExcept.value_bind, LoggedExcept.value_mapM, LoggedExcept.value_note,
    LoggedExcept.value_pure, Except.ok_bind]
  exact bind_pure _

section
variable (hdomains : e.table.Valid) (hclosed : e.table.Closed)
include hdomains hclosed

theorem regular_of_declaresInt {x : IntVar} (hx : e.table.declaresInt x = true) :
    ∃ d, e.Regular (fun _ => none) x d := by
  obtain ⟨d, hd⟩ := VariableTable.declaresInt_iff.mp hx
  exact ⟨d, hd, hdomains x d hd, Or.inl (hclosed x d hd), by simp⟩

variable (hcs : ∀ c ∈ cs, e.table.Declares c)
variable (hsize : ∀ c ∈ cs,
  e.totalReach (fun _ => none) c.terms + c.bound.natAbs < 4611686018427387904)
include hcs hsize

theorem exists_encodeEach : ∃ encs, (e.encodeEach cs).value = .ok encs := by
  rw [value_encodeEach]
  refine List.exists_mapM_eq_ok fun c hc => ?_
  have hdecl := hcs c hc
  exact exists_encoding (fun t ht => regular_of_declaresInt hdomains hclosed (hdecl.terms t ht).1)
    (fun t ht => (hdecl.terms t ht).2) (hsize c hc) fun t _ d hd => hclosed t.var d hd

theorem satisfied_encodeEach_iff (hν : e.table.Admits ν)
    (h : (e.encodeEach cs).value = .ok encs) :
    (∀ enc ∈ encs, enc.Satisfied ν) ↔ ∀ c ∈ cs, c.Holds ν := by
  rw [value_encodeEach, List.mapM_eq_ok_iff] at h
  induction h with
  | nil => simp
  | @cons c enc cs encs henc _ ih =>
    obtain ⟨hc, hcs⟩ := List.forall_mem_cons.mp hcs
    obtain ⟨hc', hsize⟩ := List.forall_mem_cons.mp hsize
    have hvars : ∀ t ∈ c.terms, ∃ d, e.Regular (fun _ => none) t.var d :=
      fun t ht => regular_of_declaresInt hdomains hclosed (hc.terms t ht).1
    have hassigns : e.Assigns (fun _ => none) ν c.terms := by
      intro t ht o ho
      obtain ⟨d, hd⟩ := hvars t ht
      have hdo : d = o := Except.ok.inj ((domain_eq_ok hd.domain_eq).symm.trans ho)
      rw [← hdo]
      exact hν t.var d hd.domain_eq
    have hiff := satisfied_iff_holds hvars (fun t ht => (hc.terms t ht).2) hc' henc hassigns
    simp only [List.forall_mem_cons]
    rw [hiff, ih hcs hsize]

end

end Encoder

/-- Four variables over small domains and a boolean variable, a long sum that is at least `2`
unless the boolean variable holds, a disequality, and an all-different relation. -/
def smallRequests : List Request :=
  [.declareInt (.interval (.fin 0) (.fin 2)), .declareInt (.interval (.fin 0) (.fin 2)),
    .declareInt (.interval (.fin (-1)) (.fin 1)), .declareInt (.interval (.fin 0) (.fin 1)),
    .declareBool,
    .atLeastReified [⟨⟨0, false⟩, 1⟩, ⟨⟨1, false⟩, -1⟩, ⟨⟨2, false⟩, 1⟩, ⟨⟨3, false⟩, 1⟩] 2
      ⟨⟨0, false⟩, true⟩,
    .different [⟨⟨0, false⟩, 1⟩, ⟨⟨1, false⟩, 1⟩] 3,
    .allDifferent [⟨0, false⟩, ⟨2, false⟩, ⟨3, false⟩]]

end ThresholdEncoding
