import ThresholdEncoding.Instance.Record
import ThresholdEncoding.Proofs.Instance.Failure
import ThresholdEncoding.Proofs.Instance.Relations

/-!
# Building in small steps

Whatever is asked of an instance, it changes by small steps only: something valid is declared,
something about declared variables is appended, or a setting is made. A computation that fails has
taken some of its steps, so what each step preserves holds after a failure as well.

* `Instance.Step`, `Instance.Steps`: one change and a sequence of changes.
* `Steps.appends`, `Steps.sound`: what is there stays where it is, and soundness is kept.
* `Build.Proceeds`: a computation takes steps, and its answer has a property.
* `proceeds_pushAtLeast`, …, `proceeds_restore`: all computations that build instances do.
-/

namespace ThresholdEncoding

namespace Instance

/-- The changes that building an instance is made of. -/
inductive Step (i : Instance) : Instance → Prop where
  | addInt {d : Domain} (hd : d.Valid) (introduced : Bool) : Step i (i.addInt d introduced)
  | addBool (introduced : Bool) : Step i (i.addBool introduced)
  | push {c : LinearConstraint} (hc : i.table.Declares c) : Step i (i.push c)
  | clause {lits : BoolClause} (h : ∀ l ∈ lits, i.table.declaresBool l.var = true) :
    Step i { i with clauses := i.clauses ++ [lits] }
  | link {l : Link} (hb : ∀ b, l.boolean = .var b → i.table.declaresBool b = true)
    (hx : i.table.declaresInt l.int = true) : Step i { i with links := i.links ++ [l] }
  | objectiveTerm {t : Term} (h : i.table.declaresInt t.var = true) :
    Step i { i with objective := i.objective.add t }
  | rename (name : Option String) : Step i { i with name }
  | assumeUnbounded : Step i { i with unbounded := true }
  | chooseStrategy (s : Strategy) :
    Step i { i with objective := { i.objective with strategy := s } }

/-- A sequence of changes. -/
def Steps : Instance → Instance → Prop := Relation.ReflTransGen Step

/-- The larger instance has everything that the smaller one has, at the same positions. -/
structure Appends (i k : Instance) : Prop extends Extends i k where
  clauses : i.clauses <+: k.clauses
  links : i.links <+: k.links
  objective : i.objective.terms <+: k.objective.terms

variable {i j k : Instance}

theorem Appends.refl (i : Instance) : i.Appends i :=
  ⟨.refl i, List.prefix_refl _, List.prefix_refl _, List.prefix_refl _⟩

theorem Appends.trans (h : i.Appends j) (h' : j.Appends k) : i.Appends k :=
  ⟨h.toExtends.trans h'.toExtends, h.clauses.trans h'.clauses, h.links.trans h'.links,
    h.objective.trans h'.objective⟩

/-- What leaves clauses, links and the objective alone appends if it extends. -/
theorem Extends.appends (h : i.Extends k) (h1 : k.clauses = i.clauses) (h2 : k.links = i.links)
    (h3 : k.objective = i.objective) : i.Appends k :=
  ⟨h, h1 ▸ List.prefix_refl _, h2 ▸ List.prefix_refl _, h3 ▸ List.prefix_refl _⟩

/-- **A step only appends.** -/
theorem Step.appends (h : i.Step k) : i.Appends k := by
  cases h with
  | addInt hd introduced => exact extends_addInt.appends rfl rfl rfl
  | addBool introduced => exact extends_addBool.appends rfl rfl rfl
  | push hc => exact extends_push.appends rfl rfl rfl
  | clause h => exact { Appends.refl i with clauses := List.prefix_append _ _ }
  | link hb hx => exact { Appends.refl i with links := List.prefix_append _ _ }
  | objectiveTerm h => exact { Appends.refl i with objective := List.prefix_append _ _ }
  | rename | assumeUnbounded | chooseStrategy => exact { Appends.refl i with }

theorem Step.sound (h : i.Step k) (hi : i.Sound) : k.Sound := by
  cases h with
  | addInt hd introduced => exact hi.addInt hd introduced
  | addBool introduced => exact hi.addBool introduced
  | push hc => exact hi.push hc
  | clause | link | objectiveTerm | rename | assumeUnbounded | chooseStrategy =>
    exact ⟨hi.domains, hi.constraints⟩

theorem Step.steps (h : i.Step k) : i.Steps k := .single h

theorem Steps.refl (i : Instance) : i.Steps i := Relation.ReflTransGen.refl

theorem Steps.trans (h : i.Steps j) (h' : j.Steps k) : i.Steps k :=
  Relation.ReflTransGen.trans h h'

/-- What every step preserves, sequences of steps preserve. -/
theorem Steps.preserves {P : Instance → Prop} (hP : ∀ i k, i.Step k → P i → P k) (h : i.Steps k)
    (hi : P i) : P k := by
  induction h with
  | refl => exact hi
  | tail _ hstep ih => exact hP _ _ hstep ih

theorem Steps.appends (h : i.Steps k) : i.Appends k :=
  h.preserves (P := i.Appends) (fun _ _ hstep hj => hj.trans hstep.appends) (.refl i)

theorem Steps.table (h : i.Steps k) : i.table.Extends k.table := h.appends.table

theorem Steps.sound (h : i.Steps k) (hi : i.Sound) : k.Sound :=
  h.preserves (fun _ _ hstep => hstep.sound) hi

/-- The position is that of the last constraint. -/
def Last (a : Nat) (i : Instance) : Prop := a + 1 = i.constraints.length

end Instance

namespace Build

open Instance

variable {α β : Type} {x : Build α} {f : α → Build β} {i j k : Instance} {a : α}
variable {Q : α → Instance → Prop} {R : β → Instance → Prop}

/-- The computation takes steps, and with the instance it leaves, its answer has the property. -/
structure Proceeds (x : Build α) (i : Instance) (Q : α → Instance → Prop) : Prop where
  steps : i.Steps (x.after i)
  answer : ∀ a, x.result i = .ok a → Q a (x.after i)

/-! ### Composition -/

theorem Proceeds.bind (hx : x.Proceeds i Q)
    (hf : ∀ a j, i.Steps j → Q a j → (f a).Proceeds j R) : (x >>= f).Proceeds i R := by
  have hnext := fun a ha => hf a _ hx.steps (hx.answer a ha)
  constructor
  · exact after_bind_of hx.steps fun a ha => hx.steps.trans (hnext a ha).steps
  · intro b hb
    obtain ⟨a, j, ⟨ha, rfl⟩, h, hk⟩ := yields_bind_iff.mp ⟨hb, rfl⟩
    rw [← hk]
    exact (hnext a ha).answer b h

theorem proceeds_pure (h : Q a i) : (pure a : Build α).Proceeds i Q :=
  ⟨.refl i, by rintro _ ⟨⟩; exact h⟩

/-- A single step without a failure. -/
theorem proceeds_modifyGet {m : Instance → α × Instance} (h : i.Step (m i).2)
    (hQ : Q (m i).1 (m i).2) : (modifyGet m : Build α).Proceeds i Q :=
  ⟨h.steps, by rintro _ ⟨⟩; exact hQ⟩

theorem proceeds_modify {m : Instance → Instance} (h : i.Step (m i)) :
    (modify m : Build Unit).Proceeds i fun _ _ => True := proceeds_modifyGet h trivial

theorem proceeds_get_bind {g : Instance → Build β} (h : (g i).Proceeds i R) :
    (get >>= g).Proceeds i R := ⟨h.steps, h.answer⟩

theorem proceeds_ofLogged_bind {x : LoggedExcept InstanceError α}
    (hf : ∀ a, x.value = .ok a → (f a).Proceeds i R) : (ofLogged x >>= f).Proceeds i R := by
  have hx : (ofLogged x).Proceeds i fun a j => x.value = .ok a ∧ j = i :=
    ⟨.refl i, fun _ ha => ⟨ha, rfl⟩⟩
  refine hx.bind ?_
  rintro a j - ⟨ha, rfl⟩
  exact hf a ha

theorem proceeds_ofExcept_bind {x : Except InstanceError α}
    (hf : ∀ a, x = .ok a → (f a).Proceeds i R) : (ofExcept x >>= f).Proceeds i R :=
  proceeds_ofLogged_bind hf

theorem proceeds_require_bind {c : VariableTable → Except InstanceError Unit} {f : Unit → Build β}
    (hf : c i.table = .ok () → (f ()).Proceeds i R) : (require c >>= f).Proceeds i R :=
  proceeds_get_bind (g := fun i => ofExcept (c i.table) >>= f) (proceeds_ofExcept_bind fun _ => hf)

theorem proceeds_note_bind {e : LogEvent} {f : Unit → Build β} (h : (f ()).Proceeds i R) :
    (note e >>= f).Proceeds i R := ⟨h.steps, h.answer⟩

/-- A computation may be carried out for its effects only. -/
theorem Proceeds.discard (hx : x.Proceeds i Q) :
    (x >>= fun _ => (pure () : Build Unit)).Proceeds i fun _ _ => True :=
  hx.bind fun _ _ _ _ => proceeds_pure trivial

theorem proceeds_forM {g : α → Build Unit} {l : List α}
    (hg : ∀ a ∈ l, ∀ j, (g a).Proceeds j fun _ _ => True) :
    (l.forM g).Proceeds i fun _ _ => True :=
  ⟨after_forM_of (P := i.Steps) (.refl i) fun a ha j hj => hj.trans (hg a ha j).steps,
    fun _ _ => trivial⟩

/-! ### Declaring and appending -/

variable {d : Domain} {ds : List Domain} {c : LinearConstraint} {t : Term} {ts us : List Term}
variable {bound bound' : Int} {r r' : Option Reification} {y : IntVar}

theorem proceeds_addInt (hd : d.WellFormed) (introduced : Bool) :
    (addInt d introduced).Proceeds i fun y k =>
      y = i.table.nextInt introduced ∧ k = i.addInt d introduced := by
  refine proceeds_ofExcept_bind fun _ hv => proceeds_modifyGet (.addInt ⟨hd, ?_⟩ introduced)
    ⟨rfl, rfl⟩
  exact Except.mapError_eq_ok_iff.mp hv

theorem proceeds_addBool (introduced : Bool) : (addBool introduced).Proceeds i fun b k =>
    b = i.table.nextBool introduced ∧ k = i.addBool introduced :=
  proceeds_modifyGet (.addBool introduced) ⟨rfl, rfl⟩

theorem proceeds_push (hc : i.table.Declares c) : (push c).Proceeds i Last :=
  proceeds_modifyGet (.push hc) (by simp [Last])

theorem proceeds_pushEqual (hts : i.table.DeclaresTerms ts) :
    (pushEqual ts bound).Proceeds i Last := by
  refine proceeds_ofExcept_bind fun us hus => proceeds_ofExcept_bind fun _ _ => ?_
  obtain ⟨rfl, -⟩ := Term.negAll_eq_ok_iff.mp hus
  refine (proceeds_push ⟨hts, by simp⟩).bind fun _ j hj _ => ?_
  exact proceeds_push ⟨hj.table.declaresTerms hts.neg, by simp⟩

/-! ### Splitting -/

/-- The terms that are left are about declared variables. -/
theorem proceeds_foldPairs (hds : ∀ d ∈ ds, d.Valid) (hts : i.table.DeclaresTerms ts) :
    (foldPairs ds ts).Proceeds i fun rem k => k.table.DeclaresTerms rem := by
  induction ds generalizing i ts with
  | nil =>
    rw [foldPairs_nil]
    exact proceeds_pure hts
  | cons d ds ih =>
    obtain ⟨hd, hds⟩ := List.forall_mem_cons.mp hds
    match ts, hts with
    | [], hts => exact proceeds_pure hts
    | [_], hts => exact proceeds_pure hts
    | last :: t :: ts, hts =>
      obtain ⟨hlast, ht, hrest⟩ : _ ∧ _ ∧ i.table.DeclaresTerms ts := by
        simpa only [VariableTable.declaresTerms_cons_iff] using hts
      have hpair : i.table.DeclaresTerms [t, last] := VariableTable.declaresTerms_pair ht hlast
      -- the sum is declared before anything mentions it, so its equality and what is left are
      -- about known variables wherever the computation stops
      rw [foldPairs]
      refine (proceeds_addInt hd.toWellFormed true).bind ?_
      rintro _ _ - ⟨rfl, rfl⟩
      refine proceeds_note_bind ((proceeds_pushEqual (declares_difference hpair).terms).bind
        fun _ j hj _ => ih hds ?_)
      exact hj.table.declaresTerms (declares_next hrest)

/-- The last estimate is declared. -/
theorem proceeds_estimate (hds : ∀ d ∈ ds, d.Valid) (hy : i.table.declaresInt y = true)
    (hts : i.table.DeclaresTerms ts) :
    (estimate y (ts.zip ds)).Proceeds i fun y k => k.table.declaresInt y = true := by
  induction ts generalizing i y ds with
  | nil => exact proceeds_pure hy
  | cons t ts ih =>
    cases ds with
    | nil => exact proceeds_pure hy
    | cons d ds =>
      obtain ⟨hd, hds⟩ := List.forall_mem_cons.mp hds
      obtain ⟨ht, hts⟩ := VariableTable.declaresTerms_cons_iff.mp hts
      have hpair : i.table.DeclaresTerms [t, ⟨y, 1⟩] :=
        VariableTable.declaresTerms_pair ht ⟨hy, one_ne_zero⟩
      rw [List.zip_cons_cons, estimate]
      refine (proceeds_addInt hd.toWellFormed true).bind ?_
      rintro _ _ - ⟨rfl, rfl⟩
      refine proceeds_note_bind ((proceeds_push (declares_difference hpair)).bind
        fun _ j hj _ => ih hds ?_ ?_)
      · exact hj.table.declaresInt VariableTable.declaresInt_addInt_nextInt
      · exact hj.table.declaresTerms (VariableTable.extends_addInt.declaresTerms hts)

section
variable (hi : i.Sound) (hc : i.table.Declares ⟨ts, bound, r⟩)
include hi hc

theorem proceeds_splitExactly : (splitExactly ts bound r).Proceeds i Last := by
  refine proceeds_get_bind ?_
  cases hrev : ts.reverse with
  | nil => exact proceeds_push hc
  | cons last others =>
    refine proceeds_ofExcept_bind fun acc hacc => proceeds_ofLogged_bind fun ds hds => ?_
    have hsums := VariableTable.runningSums_spec hi.domains
      (VariableTable.scaledDomain_spec hi.domains hacc).1 hds
    have hts : i.table.DeclaresTerms (last :: others) := by
      rw [← hrev]
      exact VariableTable.declaresTerms_reverse_iff.mpr hc.terms
    refine (proceeds_foldPairs hsums.valid hts).bind fun rem j hj hrem => proceeds_push ⟨?_, ?_⟩
    · exact VariableTable.declaresTerms_reverse_iff.mpr hrem
    · exact (hj.table.declares hc).reification

theorem proceeds_splitByEstimates : (splitByEstimates ts bound r).Proceeds i Last := by
  refine proceeds_get_bind ?_
  cases ts with
  | nil => exact proceeds_push hc
  | cons t ts =>
    refine proceeds_ofExcept_bind fun d hd => proceeds_ofLogged_bind fun ds hds => ?_
    have hv := (VariableTable.scaledDomain_spec hi.domains hd).1
    have hsums := VariableTable.runningSums_spec hi.domains hv hds
    obtain ⟨ht, hts⟩ := VariableTable.declaresTerms_cons_iff.mp hc.terms
    have hone : i.table.DeclaresTerms [t] := VariableTable.declaresTerms_singleton ht
    refine (proceeds_addInt hv.toWellFormed true).bind ?_
    rintro _ _ hfirst ⟨rfl, rfl⟩
    refine proceeds_note_bind ((proceeds_push (declares_difference hone)).bind fun _ j hj _ => ?_)
    have hext := (hfirst.trans hj).table
    refine (proceeds_estimate hsums.valid ?_ (hext.declaresTerms hts)).bind fun y k hk hy => ?_
    · exact hj.table.declaresInt VariableTable.declaresInt_addInt_nextInt
    · refine proceeds_push ⟨?_, ((hext.trans hk.table).declares hc).reification⟩
      exact VariableTable.declaresTerms_singleton ⟨hy, one_ne_zero⟩

/-- **A constraint is appended in steps**, even if splitting it fails midway. -/
theorem proceeds_pushAtLeast : (pushAtLeast ts bound r).Proceeds i Last := by
  unfold pushAtLeast
  split_ifs
  · exact proceeds_push hc
  · refine proceeds_get_bind ?_
    split
    · exact proceeds_push hc
    · exact proceeds_splitExactly hi hc
    · exact proceeds_splitByEstimates hi hc

theorem proceeds_pushAtLeast_pushAtLeast (hc' : i.table.Declares ⟨us, bound', r'⟩) :
    (pushAtLeast ts bound r >>= fun _ => pushAtLeast us bound' r').Proceeds i Last :=
  (proceeds_pushAtLeast hi hc).bind fun _ _ hj _ =>
    proceeds_pushAtLeast (hj.sound hi) (hj.table.declares hc')

end

/-! ### Relations -/

section
variable (hi : i.Sound)
include hi

theorem proceeds_atLeast (ts : List Term) (bound : Int) : (atLeast ts bound).Proceeds i Last :=
  proceeds_require_bind fun h =>
    proceeds_pushAtLeast hi ⟨VariableTable.requireTerms_eq_ok_iff.mp h, by simp⟩

theorem proceeds_atLeastReified (ts : List Term) (bound : Int) (r : Reification) :
    (atLeastReified ts bound r).Proceeds i Last := by
  refine proceeds_require_bind fun h => proceeds_require_bind fun hr => ?_
  refine proceeds_pushAtLeast hi ⟨VariableTable.requireTerms_eq_ok_iff.mp h, ?_⟩
  simpa using VariableTable.requireBool_eq_ok_iff.mp hr

theorem proceeds_atMost (ts : List Term) (bound : Int) : (atMost ts bound).Proceeds i Last :=
  proceeds_ofExcept_bind fun _ _ => proceeds_ofExcept_bind fun _ _ => proceeds_atLeast hi _ _

theorem proceeds_atMostReified (ts : List Term) (bound : Int) (r : Reification) :
    (atMostReified ts bound r).Proceeds i Last :=
  proceeds_ofExcept_bind fun _ _ => proceeds_ofExcept_bind fun _ _ =>
    proceeds_atLeastReified hi _ _ r

theorem proceeds_greater (ts : List Term) (bound : Int) : (greater ts bound).Proceeds i Last :=
  proceeds_ofExcept_bind fun _ _ => proceeds_atLeast hi ts _

theorem proceeds_less (ts : List Term) (bound : Int) : (less ts bound).Proceeds i Last :=
  proceeds_ofExcept_bind fun _ _ => proceeds_ofExcept_bind fun _ _ => proceeds_atLeast hi _ _

theorem proceeds_equal (ts : List Term) (bound : Int) : (equal ts bound).Proceeds i Last := by
  refine proceeds_require_bind fun h => proceeds_ofExcept_bind fun us hus =>
    proceeds_ofExcept_bind fun _ _ => ?_
  have hts := VariableTable.requireTerms_eq_ok_iff.mp h
  obtain ⟨rfl, -⟩ := Term.negAll_eq_ok_iff.mp hus
  exact proceeds_pushAtLeast_pushAtLeast hi ⟨hts, by simp⟩ ⟨hts.neg, by simp⟩

theorem proceeds_either (bound bound' : Int) (hts : i.table.DeclaresTerms ts)
    (hus : i.table.DeclaresTerms us) : (either ts bound us bound').Proceeds i Last := by
  refine (proceeds_addBool true).bind ?_
  rintro _ _ hj ⟨rfl, rfl⟩
  exact proceeds_pushAtLeast_pushAtLeast (hj.sound hi) (declares_either bound true hts)
    (declares_either bound' false hus)

theorem proceeds_different (ts : List Term) (bound : Int) :
    (different ts bound).Proceeds i Last := by
  refine proceeds_require_bind fun h => proceeds_ofExcept_bind fun us hus =>
    proceeds_ofExcept_bind fun _ _ => proceeds_ofExcept_bind fun _ _ => ?_
  have hts := VariableTable.requireTerms_eq_ok_iff.mp h
  obtain ⟨rfl, -⟩ := Term.negAll_eq_ok_iff.mp hus
  exact proceeds_either hi _ _ hts hts.neg

/-- The answer is the one given only if there are no pairs. -/
theorem proceeds_differentPairs {ps : List (IntVar × IntVar)} {a : Nat} (hps : ∀ p ∈ ps,
    i.table.declaresInt p.1 = true ∧ i.table.declaresInt p.2 = true) (ha : ps ≠ [] ∨ Last a i) :
    (differentPairs a ps).Proceeds i Last := by
  induction ps generalizing i a with
  | nil => exact proceeds_pure (ha.resolve_left fun h => h rfl)
  | cons p ps ih =>
    obtain ⟨x, y⟩ := p
    obtain ⟨⟨hx, hy⟩, hps⟩ := List.forall_mem_cons.mp hps
    rw [differentPairs_cons]
    refine (proceeds_either hi 1 1 (declares_pair hx hy (show (1 : Int) ≠ 0 by decide))
      (declares_pair hx hy (show (-1 : Int) ≠ 0 by decide))).bind fun a j hj hlast => ?_
    refine ih (hj.sound hi) (fun p hp => ?_) (Or.inr hlast)
    exact ⟨hj.table.declaresInt (hps p hp).1, hj.table.declaresInt (hps p hp).2⟩

omit hi in
theorem pairsOf_ne_nil {α : Type} {l : List α} (h : 2 ≤ l.length) : pairsOf l ≠ [] := by
  match l, h with
  | a :: b :: l, _ => simp [pairsOf]

theorem proceeds_allDifferent (xs : List IntVar) : (allDifferent xs).Proceeds i Last := by
  unfold allDifferent
  split_ifs with hlen
  · exact ⟨.refl i, by rintro _ ⟨⟩⟩
  · refine proceeds_require_bind fun h => ?_
    simp only [List.forM_eq_ok_iff, VariableTable.requireInt_eq_ok_iff] at h
    exact proceeds_differentPairs hi (forall_mem_pairsOf_declared h)
      (Or.inl (pairsOf_ne_nil (by omega)))

end

/-! ### Links, clauses, the objective and records -/

theorem proceeds_link (b : BoolAtom) (y : IntVar) : (link b y).Proceeds i fun _ _ => True := by
  cases b with
  | var b =>
    refine proceeds_require_bind fun hb => proceeds_require_bind fun hy =>
      proceeds_modifyGet (.link (l := ⟨.var b, y⟩) ?_ ?_) trivial
    · rintro _ ⟨⟩; exact VariableTable.requireBool_eq_ok_iff.mp hb
    · exact VariableTable.requireInt_eq_ok_iff.mp hy
  | const value =>
    refine proceeds_require_bind fun hy =>
      proceeds_modifyGet (.link (l := ⟨.const value, y⟩) ?_ ?_) trivial
    · rintro _ ⟨⟩
    · exact VariableTable.requireInt_eq_ok_iff.mp hy

theorem proceeds_clause (lits : BoolClause) : (clause lits).Proceeds i fun _ _ => True := by
  refine proceeds_require_bind fun h => proceeds_modifyGet (.clause ?_) trivial
  simpa only [List.forM_eq_ok_iff, VariableTable.requireBool_eq_ok_iff] using h

theorem proceeds_objectiveTerm (t : Term) : (objectiveTerm t).Proceeds i fun _ _ => True :=
  proceeds_require_bind fun h =>
    proceeds_modify (.objectiveTerm (VariableTable.requireInt_eq_ok_iff.mp h))

theorem proceeds_restoreInt (hd : d.WellFormed) :
    (restoreInt y d).Proceeds i fun _ _ => True :=
  proceeds_require_bind fun _ => (proceeds_addInt hd _).discard

theorem proceeds_restoreBool (b : BoolVar) : (restoreBool b).Proceeds i fun _ _ => True :=
  proceeds_require_bind fun _ => (proceeds_addBool _).discard

theorem proceeds_restoreConstraint (c : LinearConstraint) :
    (restoreConstraint c).Proceeds i fun _ _ => True := by
  refine proceeds_require_bind fun h => ?_
  have hts := VariableTable.requireTerms_eq_ok_iff.mp h
  obtain ⟨ts, bound, r⟩ := c
  cases r with
  | none => exact (proceeds_push ⟨hts, by simp⟩).discard
  | some r =>
    refine proceeds_require_bind fun hr => (proceeds_push ⟨hts, ?_⟩).discard
    simpa using VariableTable.requireBool_eq_ok_iff.mp hr

/-- **A record is read back in steps.** -/
theorem proceeds_restore {r : Instance.Record} (hr : ∀ p ∈ r.domains, p.2.WellFormed) :
    (restore r).Proceeds i fun _ _ => True := by
  refine (proceeds_modify (.rename r.name)).bind fun _ _ _ _ => ?_
  refine (proceeds_forM fun p hp _ => proceeds_restoreInt (hr p hp)).bind fun _ _ _ _ => ?_
  refine (proceeds_forM fun b _ _ => proceeds_restoreBool b).bind fun _ _ _ _ => ?_
  refine (proceeds_forM fun c _ _ => proceeds_restoreConstraint c).bind fun _ _ _ _ => ?_
  refine (proceeds_forM fun lits _ _ => (proceeds_clause lits).discard).bind fun _ _ _ _ => ?_
  refine (proceeds_forM fun l _ _ => (proceeds_link l.boolean l.int).discard).bind
    fun _ _ _ _ => ?_
  refine (proceeds_forM fun t _ _ => proceeds_objectiveTerm t).bind fun _ _ _ _ => ?_
  refine (proceeds_modify (.chooseStrategy _)).bind fun _ _ _ _ => ?_
  split_ifs
  · exact proceeds_modify .assumeUnbounded
  · exact proceeds_pure trivial

end Build

end ThresholdEncoding
