import ThresholdEncoding.Proofs.Instance.Reduces

/-!
# Splitting keeps the meaning

The domains of introduced variables have all sums of values that they may have to take. So a split
constraint can be satisfied by giving the introduced variables the exact sums, and conversely the
constraints of a split bound the exact sum from above.

* `VariableTable.Sums`, `runningSums_spec`: the domains of introduced variables.
* `foldPairs_reduces`, `estimate_reduces`: one introduced variable after the other.
* `pushAtLeast_reduces`: a constraint that is appended, split or not, expresses itself.
-/

namespace ThresholdEncoding

variable {T : VariableTable} {t : Term} {ts us vs : List Term} {acc d : Domain} {ds : List Domain}
variable {i j k : Instance} {bound : Int} {r : Option Reification}

/-! ### Opposite terms and checked bounds -/

theorem Term.negAll_eq_ok_iff :
    Term.negAll ts = .ok us ↔ us = ts.map (- ·) ∧ ∀ t ∈ ts, Word.Fits (-t.weight) := by
  unfold negAll
  rw [List.mapM_eq_ok_iff]
  induction ts generalizing us with
  | nil => simp
  | cons t ts ih =>
    rw [List.forall₂_cons_left_iff]
    constructor
    · rintro ⟨u, us, hu, hus, rfl⟩
      obtain ⟨rfl, h2⟩ := ih.mp hus
      split at hu
      · next u' h =>
        cases hu
        obtain ⟨rfl, h1⟩ := Term.neg?_eq_some_iff.mp h
        exact ⟨rfl, List.forall_mem_cons.mpr ⟨h1, h2⟩⟩
      · cases hu
    · rintro ⟨rfl, h⟩
      obtain ⟨h1, h2⟩ := List.forall_mem_cons.mp h
      refine ⟨-t, ts.map (- ·), ?_, ih.mpr ⟨rfl, h2⟩, rfl⟩
      rw [Term.neg?_eq_some_iff.mpr ⟨rfl, h1⟩]

theorem InstanceError.checked_eq_ok_iff {n m : Int} :
    InstanceError.checked n = .ok m ↔ m = n ∧ Word.Fits n := by
  unfold checked
  by_cases h : Word.Fits n
  · simp [Word.check?_of_fits h, h, eq_comm]
  · simp [Word.check?_of_not_fits h, h]

section
variable {β : Type} {b : β}

theorem Build.yields_negAll_bind_iff {f : List Term → Build β} :
    (Build.ofExcept (Term.negAll ts) >>= f).Yields i b k ↔
      (∀ t ∈ ts, Word.Fits (-t.weight)) ∧ (f (ts.map (- ·))).Yields i b k := by
  rw [yields_ofExcept_bind_iff]
  simp only [Term.negAll_eq_ok_iff, and_assoc, exists_eq_left]

theorem Build.fails_negAll_bind_iff {f : List Term → Build β} :
    (Build.ofExcept (Term.negAll ts) >>= f).Fails i k ↔
      ¬ (∀ t ∈ ts, Word.Fits (-t.weight)) ∧ k = i ∨
        (∀ t ∈ ts, Word.Fits (-t.weight)) ∧ (f (ts.map (- ·))).Fails i k := by
  rw [fails_ofExcept_bind_iff]
  simp only [ne_eq, Term.negAll_eq_ok_iff, not_and, forall_eq, and_assoc, exists_eq_left]

theorem Build.yields_checked_bind_iff {n : Int} {f : Int → Build β} :
    (Build.ofExcept (InstanceError.checked n) >>= f).Yields i b k ↔
      Word.Fits n ∧ (f n).Yields i b k := by
  rw [yields_ofExcept_bind_iff]
  simp only [InstanceError.checked_eq_ok_iff, and_assoc, exists_eq_left]

theorem Build.fails_checked_bind_iff {n : Int} {f : Int → Build β} :
    (Build.ofExcept (InstanceError.checked n) >>= f).Fails i k ↔
      ¬ Word.Fits n ∧ k = i ∨ Word.Fits n ∧ (f n).Fails i k := by
  rw [fails_ofExcept_bind_iff]
  simp only [ne_eq, InstanceError.checked_eq_ok_iff, not_and, forall_eq, and_assoc, exists_eq_left]

end

theorem VariableTable.DeclaresTerms.neg (h : T.DeclaresTerms ts) :
    T.DeclaresTerms (ts.map (- ·)) := by
  intro t ht
  obtain ⟨u, hu, rfl⟩ := List.mem_map.mp ht
  exact ⟨(h u hu).1, by simpa using (h u hu).2⟩

/-! ### The domains of sums -/

namespace VariableTable

/-- The domains `ds` are valid and have the sums that arise when the values of terms are added one
after the other to a value of `acc`. -/
inductive Sums (T : VariableTable) : Domain → List Term → List Domain → Prop where
  | nil {acc : Domain} : T.Sums acc [] []
  | cons {acc d : Domain} {t : Term} {ts : List Term} {ds : List Domain} (valid : d.Valid)
      (closed : T.Closed → acc.isOpen = false → d.isOpen = false)
      (admits : T.Closed → acc.isOpen = false → ∀ ν v, T.Admits ν → acc.Admits v →
        d.Admits (v + t.weight * ν.int t.var))
      (rest : T.Sums d ts ds) : T.Sums acc (t :: ts) (d :: ds)

theorem scaledDomain_eq_ok_iff : T.scaledDomain t = .ok d ↔
    t.weight ≠ 0 ∧ ∃ e, T.domain? t.var = some e ∧ e.scale t.weight = .ok d := by
  unfold scaledDomain
  by_cases h : t.weight = 0
  · simp [h]
  · rw [if_neg h]
    cases he : T.domain? t.var with
    | none => simp
    | some e => simp [h, Except.mapError_eq_ok_iff]

/-- The domain of a term has its values. -/
theorem scaledDomain_spec (hT : T.Valid) (h : T.scaledDomain t = .ok d) :
    d.Valid ∧ (T.Closed → d.isOpen = false) ∧
      (T.Closed → ∀ ν, T.Admits ν → d.Admits (t.weight * ν.int t.var)) := by
  obtain ⟨-, e, he, hd⟩ := scaledDomain_eq_ok_iff.mp h
  have hv := (hT _ e he).scale hd
  have hc : T.Closed → d.isOpen = false := fun hT' =>
    (Domain.isOpen_scale (hT _ e he).toWellFormed hd).trans (hT' _ e he)
  exact ⟨hv, hc, fun hT' ν hν =>
    hv.admits (hc hT') (Domain.mul_mem_scale hd (hν _ e he).1)⟩

theorem runningSums_cons : (T.runningSums acc (t :: ts)).value =
    T.scaledDomain t >>= fun e => (e.add acc).mapError .domain >>= fun d =>
      (T.runningSums d ts).value >>= fun ds => .ok (d :: ds) := by
  rw [runningSums]
  simp only [LoggedExcept.value_bind, LoggedExcept.value_lift, LoggedExcept.value_mapError,
    Domain.value_addLogged, LoggedExcept.value_pure]

/-- **The domains of running sums have all running sums.** -/
theorem runningSums_spec (hT : T.Valid) (hacc : acc.Valid)
    (h : (T.runningSums acc ts).value = .ok ds) : T.Sums acc ts ds := by
  induction ts generalizing acc ds with
  | nil => cases h; exact .nil
  | cons t ts ih =>
    rw [runningSums_cons] at h
    obtain ⟨e, he, h⟩ := Except.bind_eq_ok_iff.mp h
    obtain ⟨d, hd, h⟩ := Except.bind_eq_ok_iff.mp h
    obtain ⟨ds', hds, h⟩ := Except.bind_eq_ok_iff.mp h
    cases h
    obtain ⟨hev, hec, hea⟩ := scaledDomain_spec hT he
    obtain ⟨hdv, hdc, hda⟩ := Domain.add_spec hev hacc (Except.mapError_eq_ok_iff.mp hd)
    refine .cons hdv (fun hT' hc => hdc (hec hT') hc) ?_ (ih hdv hds)
    intro hT' hc ν v hν hv
    rw [add_comm]
    exact hdv.admits (hdc (hec hT') hc) (hda _ (hea hT' ν hν).1 v hv.1)

theorem length_runningSums (h : (T.runningSums acc ts).value = .ok ds) :
    ds.length = ts.length := by
  induction ts generalizing acc ds with
  | nil => cases h; rfl
  | cons t ts ih =>
    rw [runningSums_cons] at h
    obtain ⟨e, -, h⟩ := Except.bind_eq_ok_iff.mp h
    obtain ⟨d, -, h⟩ := Except.bind_eq_ok_iff.mp h
    obtain ⟨ds', hds, h⟩ := Except.bind_eq_ok_iff.mp h
    cases h
    rw [List.length_cons, List.length_cons, ih hds]

end VariableTable

/-! ### Introducing a sum or an estimate -/

namespace Instance

/-- The terms minus the variable that is introduced next. -/
def difference (i : Instance) (ts : List Term) : List Term := ts ++ [⟨i.table.nextInt true, -1⟩]

/-- The instance with a variable that is at most the sum of terms. -/
def addEstimate (i : Instance) (d : Domain) (ts : List Term) : Instance :=
  (i.addInt d true).push ⟨i.difference ts, 0, none⟩

/-- The instance with a variable that is equal to the sum of terms. -/
def addSum (i : Instance) (d : Domain) (ts : List Term) : Instance :=
  (i.addEstimate d ts).push ⟨(i.difference ts).map (- ·), -0, none⟩

/-- The constraints of one instance, followed by short ones that are not reified. -/
def AppendsShort (i j : Instance) : Prop := ∃ cs, j.constraints = i.constraints ++ cs ∧
  ∀ c ∈ cs, c.reification = none ∧ c.terms.length ≤ termLimit

/-- Constraints over the terms are appended as they are. -/
def Keeps (i : Instance) (ts : List Term) : Prop :=
  ts.length ≤ termLimit ∨ i.options.splitting = .keep

theorem keeps_or_splits (i : Instance) (ts : List Term) : i.Keeps ts ∨ termLimit < ts.length ∧
    (i.options.splitting = .exactSums ∨ i.options.splitting = .estimates) := by
  unfold Keeps
  cases i.options.splitting <;> simp <;> omega

theorem AppendsShort.refl (i : Instance) : i.AppendsShort i := ⟨[], by simp, by simp⟩

theorem AppendsShort.trans (h : i.AppendsShort j) (h' : j.AppendsShort k) : i.AppendsShort k := by
  obtain ⟨cs, h1, h2⟩ := h
  obtain ⟨cs', h3, h4⟩ := h'
  refine ⟨cs ++ cs', by rw [h3, h1, List.append_assoc], fun c hc => ?_⟩
  exact (List.mem_append.mp hc).elim (h2 c) (h4 c)

theorem appendsShort_addEstimate (h : ts.length < termLimit) :
    i.AppendsShort (i.addEstimate d ts) :=
  ⟨[_], rfl, by simpa [difference] using h⟩

theorem appendsShort_addSum (h : ts.length < termLimit) : i.AppendsShort (i.addSum d ts) := by
  refine ⟨[_, _], List.append_assoc _ [_] [_], ?_⟩
  simpa [difference] using h

section
variable (hi : i.Sound) (hd : d.Valid) (hts : i.table.DeclaresTerms ts)

include hts in
theorem declares_difference : (i.addInt d true).table.Declares
    ⟨i.difference ts, 0, none⟩ := by
  refine ⟨?_, by simp⟩
  intro t ht
  rcases List.mem_append.mp ht with h | h
  · exact VariableTable.extends_addInt.declaresTerms hts t h
  · rw [List.mem_singleton.mp h]
    exact ⟨VariableTable.declaresInt_addInt_nextInt, show (-1 : Int) ≠ 0 by decide⟩

include hts in
theorem declares_opposite_difference : (i.addInt d true).table.Declares
    ⟨(i.difference ts).map (- ·), -0, none⟩ :=
  ⟨(declares_difference hts).terms.neg, by simp⟩

include hts in
theorem sum_difference (ν : Valuation) (v : Int) :
    (ν.setInt (i.table.nextInt true) v).sum (i.difference ts) = ν.sum ts - v := by
  have h := (VariableTable.agree_setInt (ν := ν) (v := v)
    (VariableTable.declaresInt_nextInt i.table true)).sum_eq hts
  rw [difference, Valuation.sum_append, ← h]
  simp [Valuation.setInt, Int.sub_eq_add_neg]

include hts in
theorem declares_next :
    (i.addInt d true).table.DeclaresTerms (⟨i.table.nextInt true, 1⟩ :: ts) := by
  refine VariableTable.declaresTerms_cons_iff.mpr ⟨⟨?_, show (1 : Int) ≠ 0 by decide⟩, ?_⟩
  · exact VariableTable.declaresInt_addInt_nextInt
  · exact VariableTable.extends_addInt.declaresTerms hts

include hts in
theorem sum_next (ν : Valuation) (v : Int) :
    (ν.setInt (i.table.nextInt true) v).sum (⟨i.table.nextInt true, 1⟩ :: ts) = v + ν.sum ts := by
  have h := (VariableTable.agree_setInt (ν := ν) (v := v)
    (VariableTable.declaresInt_nextInt i.table true)).sum_eq hts
  rw [Valuation.sum_cons, ← h]
  simp [Valuation.setInt]

include hi hd hts

theorem sound_addEstimate : (i.addEstimate d ts).Sound :=
  (hi.addInt hd true).push (declares_difference hts)

theorem sound_addSum : (i.addSum d ts).Sound :=
  (sound_addEstimate hi hd hts).push (declares_opposite_difference hts)

variable (hc : i.table.Closed → d.isOpen = false) {S : Valuation → Prop}
variable (hS : (i.addInt d true).table.Respects S)
include hc hS

theorem reduces_addEstimate : i.Reduces (i.addEstimate d ts) (fun ν =>
    ∃ v, d.Admits v ∧ v ≤ ν.sum ts ∧ S (ν.setInt (i.table.nextInt true) v)) S := by
  have hdecl := declares_difference (d := d) hts
  have h := (reduces_addInt hi hd hc ((VariableTable.respects_holds hdecl).and hS)).trans
    ((reduces_push (hi.addInt hd true) hdecl).frame hS)
  refine h.congr fun _ ν _ => exists_congr fun v => ?_
  simp only [LinearConstraint.Holds, sum_difference hts]
  simp

theorem reduces_addSum : i.Reduces (i.addSum d ts) (fun ν =>
    ∃ v, d.Admits v ∧ v = ν.sum ts ∧ S (ν.setInt (i.table.nextInt true) v)) S := by
  have hdecl := declares_opposite_difference (d := d) hts
  have h := (reduces_addEstimate hi hd hts hc ((VariableTable.respects_holds hdecl).and hS)).trans
    ((reduces_push (sound_addEstimate hi hd hts) hdecl).frame hS)
  refine h.congr fun _ ν _ => exists_congr fun v => ?_
  simp only [LinearConstraint.Holds, Valuation.sum_map_neg, sum_difference hts]
  simp only [reduceCtorEq, false_and, exists_false, or_false]
  constructor
  · rintro ⟨h1, rfl, h3⟩; exact ⟨h1, le_rfl, by omega, h3⟩
  · rintro ⟨h1, h2, h3, h4⟩; exact ⟨h1, by omega, h4⟩

end

end Instance

/-! ### One variable after the other -/

namespace Build

open Instance

variable {head prev last : Term} {x y : IntVar} {a : Nat} {rem : List Term}

theorem yields_pushEqual_bind_iff {β : Type} {b : β} {f : Nat → Build β} :
    (pushEqual ts bound >>= f).Yields i b k ↔
      (∀ t ∈ ts, Word.Fits (-t.weight)) ∧ Word.Fits (-bound) ∧ (f (i.constraints.length + 1)).Yields
        ((i.push ⟨ts, bound, none⟩).push ⟨ts.map (- ·), -bound, none⟩) b k := by
  unfold pushEqual
  simp only [bind_assoc, yields_negAll_bind_iff, yields_checked_bind_iff, yields_push_bind_iff]
  simp [Instance.push]

theorem foldPairs_nil : foldPairs [] ts = pure ts := by
  cases ts <;> rfl

/-- The terms of a difference have opposite weights that fit if the given ones have. -/
theorem forall_mem_difference_iff (i : Instance) (ts : List Term) :
    (∀ t ∈ i.difference ts, Word.Fits (-t.weight)) ↔ ∀ t ∈ ts, Word.Fits (-t.weight) := by
  have h : Word.Fits 1 := by decide
  simp [difference, or_imp, forall_and, h]

theorem yields_foldPairs_cons_iff :
    (foldPairs (d :: ds) (last :: t :: ts)).Yields i rem k ↔ d.requireValues = .ok () ∧
      (∀ u ∈ [t, last], Word.Fits (-u.weight)) ∧
      (foldPairs ds (⟨i.table.nextInt true, 1⟩ :: ts)).Yields (i.addSum d [t, last]) rem k := by
  have h : Word.Fits (-0) := by decide
  rw [foldPairs, yields_addInt_bind_iff, yields_note_bind_iff, yields_pushEqual_bind_iff,
    ← forall_mem_difference_iff i [t, last]]
  simp only [h, true_and]
  rfl

theorem yields_estimate_cons_iff :
    (estimate x ((t, d) :: (ts.zip ds))).Yields i y k ↔ d.requireValues = .ok () ∧
      (estimate (i.table.nextInt true) (ts.zip ds)).Yields (i.addEstimate d [t, ⟨x, 1⟩]) y k := by
  rw [estimate, yields_addInt_bind_iff, yields_note_bind_iff, yields_push_bind_iff]
  rfl

/-- The last terms are replaced by their sum, as many as there are domains. -/
theorem foldPairs_reduces (hi : i.Sound) (hT : T.Extends i.table) (hsums : T.Sums acc us ds)
    (hacc : i.table.Closed → acc.isOpen = false)
    (hhead : i.table.Closed → ∀ ν, i.table.Admits ν → acc.Admits (head.weight * ν.int head.var))
    (hc : i.table.Declares ⟨(head :: (us ++ vs)).reverse, bound, r⟩)
    (h : (foldPairs ds (head :: (us ++ vs))).Yields i rem j) :
    i.Reduces (j.push ⟨rem.reverse, bound, r⟩)
      (LinearConstraint.Holds ⟨(head :: (us ++ vs)).reverse, bound, r⟩) fun _ => True := by
  induction hsums generalizing i head with
  | nil =>
    rw [foldPairs_nil, yields_pure_iff] at h
    obtain ⟨rfl, rfl⟩ := h
    exact reduces_push hi hc
  | @cons acc d t us ds hd hdc hda hrest ih =>
    obtain ⟨-, -, h⟩ := yields_foldPairs_cons_iff.mp h
    have hclosed : (i.table.Closed) → d.isOpen = false := fun hi' =>
      hdc (hT.closed hi') (hacc hi')
    obtain ⟨hdhead, hdt, hothers⟩ : _ ∧ _ ∧ i.table.DeclaresTerms (us ++ vs) := by
      have := VariableTable.declaresTerms_reverse_iff.mp hc.terms
      rwa [List.cons_append, VariableTable.declaresTerms_cons_iff,
        VariableTable.declaresTerms_cons_iff] at this
    have hts : i.table.DeclaresTerms [t, head] := VariableTable.declaresTerms_pair hdt hdhead
    have hext : i.table.Extends (i.addSum d [t, head]).table := VariableTable.extends_addInt
    have hdecl : (i.addSum d [t, head]).table.Declares
        ⟨(⟨i.table.nextInt true, 1⟩ :: (us ++ vs)).reverse, bound, r⟩ := by
      refine ⟨?_, (hext.declares hc).reification⟩
      exact VariableTable.declaresTerms_reverse_iff.mpr (declares_next hothers)
    have hnext := ih (sound_addSum hi hd hts) (hT.trans hext) ?_ ?_ hdecl h
    · refine ((reduces_addSum hi hd hts hclosed (VariableTable.respects_holds hdecl)).trans
        hnext).congr fun hi' ν hν => ?_
      have hadm : d.Admits (ν.sum [t, head]) := by
        have := hda (hT.closed hi') (hacc hi') ν _ (hT.admits hν) (hhead hi' ν hν)
        simpa [add_comm] using this
      have hsum : ν.sum (head :: (t :: us ++ vs)) = ν.sum [t, head] + ν.sum (us ++ vs) := by
        simp; ring
      simp only [LinearConstraint.Holds, Valuation.sum_reverse, sum_next hothers, hsum,
        Valuation.lit_setInt]
      exact ⟨fun h => ⟨_, hadm, rfl, h⟩, by rintro ⟨v, -, rfl, h⟩; exact h⟩
    · exact fun hi' => hclosed (hext.closed hi')
    · intro hi' ν hν
      rw [one_mul]
      exact (VariableTable.admits_addInt_iff.mp hν).2

/-- Each variable is estimated from below by the next one. -/
theorem estimate_reduces (hi : i.Sound) (hT : T.Extends i.table) (hsums : T.Sums acc us ds)
    (hacc : i.table.Closed → acc.isOpen = false)
    (hx : i.table.Closed → ∀ ν, i.table.Admits ν → acc.Admits (ν.int x))
    (hc : i.table.Declares ⟨⟨x, 1⟩ :: us, bound, r⟩)
    (h : (estimate x (us.zip ds)).Yields i y j) :
    i.Reduces (j.push ⟨[⟨y, 1⟩], bound, r⟩)
      (LinearConstraint.Holds ⟨⟨x, 1⟩ :: us, bound, r⟩) fun _ => True := by
  induction hsums generalizing i x with
  | nil =>
    obtain ⟨rfl, rfl⟩ := yields_pure_iff.mp h
    exact reduces_push hi hc
  | @cons acc d t us ds hd hdc hda hrest ih =>
    obtain ⟨-, h⟩ := yields_estimate_cons_iff.mp h
    have hclosed : i.table.Closed → d.isOpen = false := fun hi' =>
      hdc (hT.closed hi') (hacc hi')
    obtain ⟨hdx, hdt, hothers⟩ : _ ∧ _ ∧ i.table.DeclaresTerms us := by
      simpa only [VariableTable.declaresTerms_cons_iff] using hc.terms
    have hts : i.table.DeclaresTerms [t, ⟨x, 1⟩] := VariableTable.declaresTerms_pair hdt hdx
    have hext : i.table.Extends (i.addEstimate d [t, ⟨x, 1⟩]).table := VariableTable.extends_addInt
    have hdecl : (i.addEstimate d [t, ⟨x, 1⟩]).table.Declares
        ⟨⟨i.table.nextInt true, 1⟩ :: us, bound, r⟩ :=
      ⟨declares_next hothers, (hext.declares hc).reification⟩
    have hnext := ih (sound_addEstimate hi hd hts) (hT.trans hext) ?_ ?_ hdecl h
    · refine ((reduces_addEstimate hi hd hts hclosed (VariableTable.respects_holds hdecl)).trans
        hnext).congr fun hi' ν hν => ?_
      have hadm : d.Admits (ν.sum [t, ⟨x, 1⟩]) := by
        have := hda (hT.closed hi') (hacc hi') ν _ (hT.admits hν) (hx hi' ν hν)
        simpa [add_comm] using this
      have hsum : ν.sum (⟨x, 1⟩ :: t :: us) = ν.sum [t, ⟨x, 1⟩] + ν.sum us := by
        simp; ring
      simp only [LinearConstraint.Holds, sum_next hothers, hsum, Valuation.lit_setInt]
      constructor
      · exact fun h => ⟨_, hadm, le_rfl, h⟩
      · rintro ⟨v, -, hv, h⟩; exact h.imp_left fun h => by omega
    · exact fun hi' => hclosed (hext.closed hi')
    · intro hi' ν hν
      exact (VariableTable.admits_addInt_iff.mp hν).2

/-! ### Splitting a constraint -/

theorem yields_splitExactly_iff (h : ts.reverse = head :: us) :
    (splitExactly ts bound r).Yields i a k ↔ ∃ acc, i.table.scaledDomain head = .ok acc ∧ ∃ ds,
      (i.table.runningSums acc (us.take (ts.length - termLimit))).value = .ok ds ∧ ∃ rem j,
      (foldPairs ds (head :: us)).Yields i rem j ∧ a = j.constraints.length ∧
      k = j.push ⟨rem.reverse, bound, r⟩ := by
  unfold splitExactly
  rw [yields_get_bind_iff]
  simp only [h, yields_ofExcept_bind_iff, yields_ofLogged_bind_iff]
  simp only [yields_bind_iff, yields_push_iff]

theorem yields_splitByEstimates_iff : (splitByEstimates (t :: ts) bound r).Yields i a k ↔
    ∃ d, i.table.scaledDomain t = .ok d ∧ ∃ ds, (i.table.runningSums d ts).value = .ok ds ∧
      d.requireValues = .ok () ∧ ∃ y j, (estimate (i.table.nextInt true) (ts.zip ds)).Yields
        (i.addEstimate d [t]) y j ∧ a = j.constraints.length ∧ k = j.push ⟨[⟨y, 1⟩], bound, r⟩ := by
  unfold splitByEstimates
  rw [yields_get_bind_iff]
  simp only [yields_ofExcept_bind_iff, yields_ofLogged_bind_iff, yields_addInt_bind_iff,
    yields_note_bind_iff, yields_push_bind_iff]
  simp only [yields_bind_iff, yields_push_iff]
  rfl

theorem splitExactly_reduces (hi : i.Sound) (hc : i.table.Declares ⟨ts, bound, r⟩)
    (hlen : termLimit < ts.length) (h : (splitExactly ts bound r).Yields i a k) :
    i.Reduces k (LinearConstraint.Holds ⟨ts, bound, r⟩) fun _ => True := by
  obtain ⟨head, us, hrev⟩ : ∃ head us, ts.reverse = head :: us :=
    List.exists_cons_of_length_pos (by rw [List.length_reverse]; omega)
  obtain ⟨acc, hacc, ds, hds, rem, j, hfold, -, rfl⟩ := (yields_splitExactly_iff hrev).mp h
  obtain ⟨hv, hclosed, hadm⟩ := VariableTable.scaledDomain_spec hi.domains hacc
  have hsums := VariableTable.runningSums_spec hi.domains hv hds
  obtain rfl : ts = (head :: us).reverse := by rw [← hrev, List.reverse_reverse]
  generalize ((head :: us).reverse.length - termLimit) = m at hsums
  rw [← List.take_append_drop m us] at hfold hc ⊢
  exact foldPairs_reduces hi (.refl _) hsums hclosed hadm hc hfold

theorem splitByEstimates_reduces (hi : i.Sound) (hc : i.table.Declares ⟨ts, bound, r⟩)
    (hlen : termLimit < ts.length) (h : (splitByEstimates ts bound r).Yields i a k) :
    i.Reduces k (LinearConstraint.Holds ⟨ts, bound, r⟩) fun _ => True := by
  obtain ⟨t, us, rfl⟩ : ∃ t us, ts = t :: us := List.exists_cons_of_length_pos (by omega)
  obtain ⟨d, hd, ds, hds, -, y, j, hest, -, rfl⟩ := yields_splitByEstimates_iff.mp h
  obtain ⟨hv, hclosed, hadm⟩ := VariableTable.scaledDomain_spec hi.domains hd
  have hsums := VariableTable.runningSums_spec hi.domains hv hds
  obtain ⟨hdt, hothers⟩ := VariableTable.declaresTerms_cons_iff.mp hc.terms
  have hts : i.table.DeclaresTerms [t] := VariableTable.declaresTerms_singleton hdt
  have hext : i.table.Extends (i.addEstimate d [t]).table := VariableTable.extends_addInt
  have hdecl : (i.addEstimate d [t]).table.Declares
      ⟨⟨i.table.nextInt true, 1⟩ :: us, bound, r⟩ :=
    ⟨declares_next hothers, (hext.declares hc).reification⟩
  have hrest := estimate_reduces (sound_addEstimate hi hv hts) hext hsums
    (fun hi' => hclosed (hext.closed hi')) (fun _ ν hν => (VariableTable.admits_addInt_iff.mp hν).2)
    hdecl hest
  refine ((reduces_addEstimate hi hv hts hclosed (VariableTable.respects_holds hdecl)).trans
    hrest).congr fun hi' ν hν => ?_
  have hsum : ν.sum (t :: us) = ν.sum [t] + ν.sum us := by simp
  simp only [LinearConstraint.Holds, sum_next hothers, hsum, Valuation.lit_setInt]
  constructor
  · exact fun h => ⟨_, by simpa using hadm hi' ν hν, le_rfl, h⟩
  · rintro ⟨v, -, hv, h⟩; exact h.imp_left fun h => by omega

/-! ### Appending a constraint -/

theorem run_pushAtLeast (hlen : termLimit < ts.length) : (pushAtLeast ts bound r).run i =
    (match i.options.splitting with
      | .keep => push ⟨ts, bound, r⟩
      | .exactSums => splitExactly ts bound r
      | .estimates => splitByEstimates ts bound r).run i := by
  unfold pushAtLeast
  rw [if_neg (by omega)]
  rfl

theorem run_pushAtLeast_of_keeps (h : i.Keeps ts) :
    (pushAtLeast ts bound r).run i = (push ⟨ts, bound, r⟩).run i := by
  by_cases hlen : ts.length ≤ termLimit
  · unfold pushAtLeast
    rw [if_pos hlen]
  · rw [run_pushAtLeast (by omega), h.resolve_left hlen]

theorem run_pushAtLeast_of_exactSums (hlen : termLimit < ts.length)
    (h : i.options.splitting = .exactSums) :
    (pushAtLeast ts bound r).run i = (splitExactly ts bound r).run i := by
  rw [run_pushAtLeast hlen, h]

theorem run_pushAtLeast_of_estimates (hlen : termLimit < ts.length)
    (h : i.options.splitting = .estimates) :
    (pushAtLeast ts bound r).run i = (splitByEstimates ts bound r).run i := by
  rw [run_pushAtLeast hlen, h]

/-- **A constraint that is appended, split or not, expresses itself.** -/
theorem pushAtLeast_reduces (hi : i.Sound) (hc : i.table.Declares ⟨ts, bound, r⟩)
    (h : (pushAtLeast ts bound r).Yields i a k) :
    i.Reduces k (LinearConstraint.Holds ⟨ts, bound, r⟩) fun _ => True := by
  rcases keeps_or_splits i ts with hk | ⟨hlen, hs | hs⟩
  · rw [yields_congr (run_pushAtLeast_of_keeps hk)] at h
    obtain ⟨-, rfl⟩ := yields_push_iff.mp h
    exact reduces_push hi hc
  · rw [yields_congr (run_pushAtLeast_of_exactSums hlen hs)] at h
    exact splitExactly_reduces hi hc hlen h
  · rw [yields_congr (run_pushAtLeast_of_estimates hlen hs)] at h
    exact splitByEstimates_reduces hi hc hlen h

/-! ### The form of a split -/

theorem foldPairs_short (hlen : ds.length < ts.length) (h : (foldPairs ds ts).Yields i rem j) :
    i.AppendsShort j ∧ rem.length + ds.length = ts.length := by
  induction ds generalizing i ts with
  | nil =>
    rw [foldPairs_nil, yields_pure_iff] at h
    obtain ⟨rfl, rfl⟩ := h
    exact ⟨.refl _, rfl⟩
  | cons d ds ih =>
    match ts, hlen with
    | last :: t :: ts, hlen =>
      obtain ⟨-, -, h⟩ := yields_foldPairs_cons_iff.mp h
      obtain ⟨h1, h2⟩ := ih (by simpa using hlen) h
      have h3 : i.AppendsShort (i.addSum d [t, last]) := appendsShort_addSum (by simp [termLimit])
      exact ⟨h3.trans h1, by simp only [List.length_cons] at h2 ⊢; omega⟩

theorem estimate_short (h : (estimate x (ts.zip ds)).Yields i y j) : i.AppendsShort j := by
  induction ts generalizing i x ds with
  | nil =>
    obtain ⟨-, rfl⟩ := yields_pure_iff.mp h
    exact .refl _
  | cons t ts ih =>
    cases ds with
    | nil =>
      obtain ⟨-, rfl⟩ := yields_pure_iff.mp h
      exact .refl _
    | cons d ds =>
      obtain ⟨-, h⟩ := yields_estimate_cons_iff.mp h
      have h1 : i.AppendsShort (i.addEstimate d [t, ⟨x, 1⟩]) :=
        appendsShort_addEstimate (by simp [termLimit])
      exact h1.trans (ih h)

/-- A split appends short constraints, of which the last one is the reified one. -/
theorem pushAtLeast_short (hk : ¬ i.Keeps ts) (h : (pushAtLeast ts bound r).Yields i a k) :
    ∃ j us, i.AppendsShort j ∧ us.length ≤ termLimit ∧ a = j.constraints.length ∧
      k = j.push ⟨us, bound, r⟩ := by
  rcases (keeps_or_splits i ts).resolve_left hk with ⟨hlen, hs | hs⟩
  · rw [yields_congr (run_pushAtLeast_of_exactSums hlen hs)] at h
    obtain ⟨head, us, hrev⟩ : ∃ head us, ts.reverse = head :: us :=
      List.exists_cons_of_length_pos (by rw [List.length_reverse]; omega)
    obtain ⟨acc, -, ds, hds, rem, j, hfold, rfl, rfl⟩ := (yields_splitExactly_iff hrev).mp h
    have h1 := VariableTable.length_runningSums hds
    have h2 : ts.length = us.length + 1 := by rw [← List.length_reverse, hrev, List.length_cons]
    rw [List.length_take] at h1
    unfold termLimit at hlen h1 ⊢
    obtain ⟨hshort, h3⟩ := foldPairs_short (by rw [List.length_cons]; omega) hfold
    rw [List.length_cons] at h3
    exact ⟨j, _, hshort, by rw [List.length_reverse]; omega, rfl, rfl⟩
  · rw [yields_congr (run_pushAtLeast_of_estimates hlen hs)] at h
    obtain ⟨t, us, rfl⟩ : ∃ t us, ts = t :: us := List.exists_cons_of_length_pos (by omega)
    obtain ⟨d, -, ds, -, -, y, j, hest, rfl, rfl⟩ := yields_splitByEstimates_iff.mp h
    have h1 : i.AppendsShort (i.addEstimate d [t]) := appendsShort_addEstimate (by simp [termLimit])
    exact ⟨j, _, h1.trans (estimate_short hest), by simp [termLimit], rfl, rfl⟩

end Build

end ThresholdEncoding
