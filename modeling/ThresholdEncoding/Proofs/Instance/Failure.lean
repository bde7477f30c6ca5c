import ThresholdEncoding.Proofs.Instance.Splitting

/-!
# When splitting fails

Splitting a constraint fails before anything is changed if the domain of a sum cannot be formed. If
all domains can be formed, estimates never fail; but an exact sum is declared before its opposite is
needed, and an opposite term whose weight does not fit is noticed only then.

* `Instance.Splits`: the domains can be formed.
* `Instance.Stuck`: an opposite weight does not fit.
* `exists_pushAtLeast`, `fails_pushAtLeast`, `exists_fails_pushAtLeast`: the three outcomes.
-/

namespace ThresholdEncoding

variable {T T' : VariableTable} {s : Splitting} {t head : Term} {ts us vs : List Term}
variable {acc d : Domain} {ds : List Domain} {i j k : Instance} {bound : Int}
variable {r : Option Reification}

/-! ### The domains of introduced variables -/

namespace VariableTable

/-- The domains of the variables that are introduced when a constraint is split. -/
def splitDomains (T : VariableTable) (s : Splitting) (ts : List Term) :
    Except InstanceError (List Domain) :=
  match s with
  | .keep => .ok []
  | .exactSums =>
    match ts.reverse with
    | [] => .ok []
    | last :: others => do
      (T.runningSums (← T.scaledDomain last) (others.take (ts.length - termLimit))).value
  | .estimates =>
    match ts with
    | [] => .ok []
    | t :: rest => do
      let d ← T.scaledDomain t
      return d :: (← (T.runningSums d rest).value)

theorem scaledDomain_congr (h : T.Extends T') (ht : T.declaresInt t.var = true) :
    T'.scaledDomain t = T.scaledDomain t := by
  obtain ⟨d, hd⟩ := declaresInt_iff.mp ht
  unfold scaledDomain
  rw [hd, h.domain? hd]

theorem runningSums_congr (h : T.Extends T') (hts : T.DeclaresTerms ts) (acc : Domain) :
    (T'.runningSums acc ts).value = (T.runningSums acc ts).value := by
  induction ts generalizing acc with
  | nil => rfl
  | cons t ts ih =>
    obtain ⟨ht, hts⟩ := declaresTerms_cons_iff.mp hts
    rw [runningSums_cons, runningSums_cons, scaledDomain_congr h ht.1]
    simp only [ih hts]

theorem DeclaresTerms.sublist (h : T.DeclaresTerms ts) (hus : us.Sublist ts) : T.DeclaresTerms us :=
  fun t ht => h t (hus.subset ht)

/-- Variables that are declared later do not matter for the domains. -/
theorem splitDomains_congr (h : T.Extends T') (hts : T.DeclaresTerms ts) :
    T'.splitDomains s ts = T.splitDomains s ts := by
  unfold splitDomains
  cases s with
  | keep => rfl
  | exactSums =>
    rw [← declaresTerms_reverse_iff] at hts
    cases hrev : ts.reverse with
    | nil => rfl
    | cons last others =>
      rw [hrev] at hts
      obtain ⟨hlast, hothers⟩ := declaresTerms_cons_iff.mp hts
      have hrun := runningSums_congr h
        (hothers.sublist (List.take_sublist (ts.length - termLimit) others))
      simp only [scaledDomain_congr h hlast.1, hrun]
  | estimates =>
    cases ts with
    | nil => rfl
    | cons t ts =>
      obtain ⟨ht, hts⟩ := declaresTerms_cons_iff.mp hts
      simp only [scaledDomain_congr h ht.1, runningSums_congr h hts]

theorem splitDomains_exactSums_eq_ok_iff (h : ts.reverse = head :: us) :
    T.splitDomains .exactSums ts = .ok ds ↔ ∃ acc, T.scaledDomain head = .ok acc ∧
      (T.runningSums acc (us.take (ts.length - termLimit))).value = .ok ds := by
  unfold splitDomains
  rw [h]
  exact Except.bind_eq_ok_iff

theorem splitDomains_estimates_eq_ok_iff {es : List Domain} :
    T.splitDomains .estimates (t :: ts) = .ok es ↔ ∃ d ds, T.scaledDomain t = .ok d ∧
      (T.runningSums d ts).value = .ok ds ∧ es = d :: ds := by
  show (T.scaledDomain t >>= fun d =>
    (T.runningSums d ts).value >>= fun ds => .ok (d :: ds)) = _ ↔ _
  rw [Except.bind_eq_ok_iff]
  refine exists_congr fun d => ?_
  rw [Except.bind_eq_ok_iff]
  constructor
  · rintro ⟨h1, ds, h2, h3⟩; exact ⟨ds, h1, h2, (Except.ok.inj h3).symm⟩
  · rintro ⟨ds, h1, h2, rfl⟩; exact ⟨h1, ds, h2, rfl⟩

theorem Sums.valid (h : T.Sums acc ts ds) : ∀ d ∈ ds, d.Valid := by
  induction h with
  | nil => simp
  | cons hd _ _ _ ih => exact List.forall_mem_cons.mpr ⟨hd, ih⟩

end VariableTable

namespace Instance

/-- Constraints over the terms stay as they are, or the domains for splitting them can be formed. -/
def Splits (i : Instance) (ts : List Term) : Prop :=
  i.Keeps ts ∨ ∃ ds, i.table.splitDomains i.options.splitting ts = .ok ds

/-- Exact sums are introduced, and a term that is replaced by them has no opposite that fits. -/
def Stuck (i : Instance) (ts : List Term) : Prop :=
  i.options.splitting = .exactSums ∧ termLimit < ts.length ∧
    ∃ t ∈ ts.drop (termLimit - 1), ¬ Word.Fits (-t.weight)

theorem Extends.splits_iff (h : i.Extends j) (hts : i.table.DeclaresTerms ts) :
    j.Splits ts ↔ i.Splits ts := by
  unfold Splits Keeps
  rw [h.options, VariableTable.splitDomains_congr h.table hts]

theorem Splits.resolve (h : i.Splits ts) (hlen : termLimit < ts.length)
    (hs : i.options.splitting = s) (hne : s ≠ .keep) :
    ∃ ds, i.table.splitDomains s ts = .ok ds := by
  subst hs
  exact h.resolve_left fun hk => hk.elim (fun h => by omega) hne

theorem not_stuck (h : ∀ t ∈ ts, Word.Fits (-t.weight)) : ¬ i.Stuck ts := by
  rintro ⟨-, -, t, ht, hfits⟩
  exact hfits (h t (List.mem_of_mem_drop ht))

end Instance

/-! ### The outcomes of splitting -/

namespace Build

open Instance

variable {x : IntVar}

theorem yields_or_fails {α : Type} (b : Build α) (i : Instance) :
    (∃ a, b.Yields i a (b.after i)) ∨ b.Fails i (b.after i) := by
  unfold Yields Fails
  cases b.result i with
  | ok a => exact Or.inl ⟨a, rfl, rfl⟩
  | error err => exact Or.inr ⟨⟨err, rfl⟩, rfl⟩

theorem fails_pushEqual_bind_iff {β : Type} {f : Nat → Build β} :
    (pushEqual ts bound >>= f).Fails i k ↔
      ¬ (∀ t ∈ ts, Word.Fits (-t.weight)) ∧ k = i ∨ (∀ t ∈ ts, Word.Fits (-t.weight)) ∧
        (¬ Word.Fits (-bound) ∧ k = i ∨ Word.Fits (-bound) ∧ (f (i.constraints.length + 1)).Fails
          ((i.push ⟨ts, bound, none⟩).push ⟨ts.map (- ·), -bound, none⟩) k) := by
  unfold pushEqual
  simp only [bind_assoc, fails_negAll_bind_iff, fails_checked_bind_iff, fails_push_bind_iff]
  simp [Instance.push]

theorem fails_foldPairs_cons_iff (hd : d.Valid) :
    (foldPairs (d :: ds) (head :: t :: ts)).Fails i k ↔
      ¬ (∀ u ∈ [t, head], Word.Fits (-u.weight)) ∧ k = i.addInt d true ∨
      (∀ u ∈ [t, head], Word.Fits (-u.weight)) ∧
        (foldPairs ds (⟨i.table.nextInt true, 1⟩ :: ts)).Fails (i.addSum d [t, head]) k := by
  have h : Word.Fits (-0) := by decide
  rw [foldPairs, fails_addInt_bind_iff, fails_note_bind_iff, fails_pushEqual_bind_iff,
    ← forall_mem_difference_iff i [t, head]]
  simp only [h, hd.hasValues, not_true, false_and, true_and, false_or, ne_eq]
  rfl

/-- If all opposite weights fit, exact sums can be introduced. -/
theorem exists_foldPairs (hsums : T.Sums acc us ds)
    (hw : us ≠ [] → ∀ t ∈ head :: us, Word.Fits (-t.weight)) :
    ∃ rem j, (foldPairs ds (head :: (us ++ vs))).Yields i rem j := by
  induction hsums generalizing i head with
  | nil => exact ⟨_, i, by rw [foldPairs_nil, yields_pure_iff]; exact ⟨rfl, rfl⟩⟩
  | @cons acc d t us ds hd _ _ _ ih =>
    have hw' := hw (List.cons_ne_nil _ _)
    have hus : ∀ u ∈ us, Word.Fits (-u.weight) := fun u hu => hw' u (by simp [hu])
    obtain ⟨rem, j, h⟩ : ∃ rem j, (foldPairs ds (⟨i.table.nextInt true, 1⟩ :: (us ++ vs))).Yields
        (i.addSum d [t, head]) rem j :=
      ih fun _ => List.forall_mem_cons.mpr ⟨show Word.Fits (-1) by decide, hus⟩
    refine ⟨rem, j, yields_foldPairs_cons_iff.mpr ⟨hd.hasValues, ?_, h⟩⟩
    simpa using ⟨hw' t (by simp), hw' head (by simp)⟩

/-- If some opposite weight does not fit, introducing exact sums fails with some sum declared. -/
theorem fails_foldPairs (hsums : T.Sums acc us ds) (hw : ∃ t ∈ head :: us, ¬ Word.Fits (-t.weight))
    (hne : us ≠ []) : ∃ k, (foldPairs ds (head :: (us ++ vs))).Fails i k ∧
      i.table.ints.length < k.table.ints.length := by
  induction hsums generalizing i head with
  | nil => exact absurd rfl hne
  | @cons acc d t us ds hd _ _ _ ih =>
    have hlt : i.table.ints.length < (i.addInt d true).table.ints.length := by
      simp [Instance.addInt, VariableTable.addInt]
    by_cases hfit : ∀ u ∈ [t, head], Word.Fits (-u.weight)
    · obtain ⟨u, hu, hufit⟩ : ∃ u ∈ us, ¬ Word.Fits (-u.weight) := by
        obtain ⟨u, hu, hufit⟩ := hw
        rcases List.mem_cons.mp hu with rfl | hu
        · exact absurd (hfit u (by simp)) hufit
        · rcases List.mem_cons.mp hu with rfl | hu
          · exact absurd (hfit u (by simp)) hufit
          · exact ⟨u, hu, hufit⟩
      obtain ⟨k, hk, hgrown⟩ : ∃ k, (foldPairs ds (⟨i.table.nextInt true, 1⟩ :: (us ++ vs))).Fails
          (i.addSum d [t, head]) k ∧ (i.addInt d true).table.ints.length < k.table.ints.length :=
        ih ⟨u, List.mem_cons_of_mem _ hu, hufit⟩ (List.ne_nil_of_mem hu)
      exact ⟨k, (fails_foldPairs_cons_iff hd).mpr (Or.inr ⟨hfit, hk⟩), hlt.trans hgrown⟩
    · exact ⟨i.addInt d true, (fails_foldPairs_cons_iff hd).mpr (Or.inl ⟨hfit, rfl⟩), hlt⟩

theorem exists_estimate (hds : ∀ d ∈ ds, d.Valid) :
    ∃ y j, (estimate x (ts.zip ds)).Yields i y j := by
  induction ts generalizing i x ds with
  | nil => exact ⟨x, i, yields_pure_iff.mpr ⟨rfl, rfl⟩⟩
  | cons t ts ih =>
    cases ds with
    | nil => exact ⟨x, i, yields_pure_iff.mpr ⟨rfl, rfl⟩⟩
    | cons d ds =>
      obtain ⟨hd, hds⟩ := List.forall_mem_cons.mp hds
      obtain ⟨y, j, h⟩ := ih (i := i.addEstimate d [t, ⟨x, 1⟩]) (x := i.table.nextInt true) hds
      exact ⟨y, j, yields_estimate_cons_iff.mpr ⟨hd.hasValues, h⟩⟩

/-- Without the needed domains nothing is changed. -/
theorem fails_of_domains {β : Type} {x : Except InstanceError Domain}
    {y : Domain → LoggedExcept InstanceError (List Domain)} {g : Domain → List Domain → Build β}
    (h : ∀ d ds, x = .ok d → (y d).value ≠ .ok ds) :
    (ofExcept x >>= fun d => ofLogged (y d) >>= g d).Fails i i := by
  rw [fails_ofExcept_bind_iff]
  by_cases hx : ∃ d, x = .ok d
  · obtain ⟨d, hd⟩ := hx
    exact Or.inr ⟨d, hd, fails_ofLogged_bind_iff.mpr (Or.inl ⟨fun ds => h d ds hd, rfl⟩)⟩
  · exact Or.inl ⟨fun d hd => hx ⟨d, hd⟩, rfl⟩

theorem exists_cons_of_termLimit_lt (h : termLimit < ts.length) : ∃ t us, ts = t :: us :=
  List.exists_cons_of_length_pos (by omega)

theorem exists_reverse_of_termLimit_lt (h : termLimit < ts.length) :
    ∃ head us, ts.reverse = head :: us :=
  exists_cons_of_termLimit_lt (by rwa [List.length_reverse])

/-- The terms that are replaced by exact sums. -/
theorem mem_replaced_iff (h : ts.reverse = head :: us) (hlen : termLimit < ts.length) :
    t ∈ head :: us.take (ts.length - termLimit) ↔ t ∈ ts.drop (termLimit - 1) := by
  have hsucc : ts.length - (termLimit - 1) = ts.length - termLimit + 1 := by
    unfold termLimit at hlen ⊢
    omega
  rw [← List.take_succ_cons, ← h, ← hsucc, ← List.reverse_drop, List.mem_reverse]

theorem fails_pushAtLeast (h : ¬ i.Splits ts) : (pushAtLeast ts bound r).Fails i i := by
  obtain ⟨hk, hno⟩ := not_or.mp h
  rcases (keeps_or_splits i ts).resolve_left hk with ⟨hlen, hs | hs⟩
  · rw [fails_congr (run_pushAtLeast_of_exactSums hlen hs)]
    obtain ⟨head, us, hrev⟩ := exists_reverse_of_termLimit_lt hlen
    unfold splitExactly
    rw [fails_get_bind_iff]
    simp only [hrev]
    refine fails_of_domains fun d ds hd hds => hno ⟨ds, ?_⟩
    rw [hs]
    exact (VariableTable.splitDomains_exactSums_eq_ok_iff hrev).mpr ⟨d, hd, hds⟩
  · rw [fails_congr (run_pushAtLeast_of_estimates hlen hs)]
    obtain ⟨t, us, rfl⟩ := exists_cons_of_termLimit_lt hlen
    unfold splitByEstimates
    rw [fails_get_bind_iff]
    refine fails_of_domains fun d ds hd hds => hno ⟨d :: ds, ?_⟩
    rw [hs]
    exact VariableTable.splitDomains_estimates_eq_ok_iff.mpr ⟨d, ds, hd, hds, rfl⟩

section
variable (hi : i.Sound) (hs : i.Splits ts) (bound r)
include hi hs

theorem exists_pushAtLeast (hst : ¬ i.Stuck ts) :
    ∃ a k, (pushAtLeast ts bound r).Yields i a k := by
  rcases keeps_or_splits i ts with hk | ⟨hlen, ho | ho⟩
  · exact ⟨_, _, (yields_congr (run_pushAtLeast_of_keeps hk)).mpr (yields_push_iff.mpr ⟨rfl, rfl⟩)⟩
  · obtain ⟨head, us, hrev⟩ := exists_reverse_of_termLimit_lt hlen
    obtain ⟨ds, hds⟩ := hs.resolve hlen ho (by decide)
    obtain ⟨acc, hacc, hds⟩ := (VariableTable.splitDomains_exactSums_eq_ok_iff hrev).mp hds
    have hsums := VariableTable.runningSums_spec hi.domains
      (VariableTable.scaledDomain_spec hi.domains hacc).1 hds
    obtain ⟨rem, j, hfold⟩ : ∃ rem j, (foldPairs ds (head :: us)).Yields i rem j := by
      rw [← List.take_append_drop (ts.length - termLimit) us]
      refine exists_foldPairs hsums fun _ t ht => ?_
      by_contra hfits
      exact hst ⟨ho, hlen, t, (mem_replaced_iff hrev hlen).mp ht, hfits⟩
    exact ⟨_, _, (yields_congr (run_pushAtLeast_of_exactSums hlen ho)).mpr
      ((yields_splitExactly_iff hrev).mpr ⟨acc, hacc, ds, hds, rem, j, hfold, rfl, rfl⟩)⟩
  · obtain ⟨t, us, rfl⟩ := exists_cons_of_termLimit_lt hlen
    obtain ⟨es, hes⟩ := hs.resolve hlen ho (by decide)
    obtain ⟨d, ds, hd, hds, -⟩ := VariableTable.splitDomains_estimates_eq_ok_iff.mp hes
    have hv := (VariableTable.scaledDomain_spec hi.domains hd).1
    have hsums := VariableTable.runningSums_spec hi.domains hv hds
    obtain ⟨y, j, hest⟩ : ∃ y j, (estimate (i.table.nextInt true) (us.zip ds)).Yields
      (i.addEstimate d [t]) y j := exists_estimate hsums.valid
    exact ⟨_, _, (yields_congr (run_pushAtLeast_of_estimates hlen ho)).mpr
      (yields_splitByEstimates_iff.mpr ⟨d, hd, ds, hds, hv.hasValues, y, j, hest, rfl, rfl⟩)⟩

theorem exists_fails_pushAtLeast (hst : i.Stuck ts) :
    ∃ k, (pushAtLeast ts bound r).Fails i k ∧ k ≠ i := by
  obtain ⟨ho, hlen, t, ht, hfits⟩ := hst
  obtain ⟨head, us, hrev⟩ := exists_reverse_of_termLimit_lt hlen
  obtain ⟨ds, hds⟩ := hs.resolve hlen ho (by decide)
  obtain ⟨acc, hacc, hds⟩ := (VariableTable.splitDomains_exactSums_eq_ok_iff hrev).mp hds
  have hsums := VariableTable.runningSums_spec hi.domains
    (VariableTable.scaledDomain_spec hi.domains hacc).1 hds
  have hlong : us.take (ts.length - termLimit) ≠ [] := by
    have hlen' : ts.length = us.length + 1 := by
      rw [← List.length_reverse, hrev, List.length_cons]
    refine List.ne_nil_of_length_pos ?_
    unfold termLimit at hlen ⊢
    rw [List.length_take]
    omega
  obtain ⟨k, hk, hgrown⟩ : ∃ k, (foldPairs ds (head :: us)).Fails i k ∧
      i.table.ints.length < k.table.ints.length := by
    rw [← List.take_append_drop (ts.length - termLimit) us]
    exact fails_foldPairs hsums ⟨t, (mem_replaced_iff hrev hlen).mpr ht, hfits⟩ hlong
  refine ⟨k, ?_, by rintro rfl; exact lt_irrefl _ hgrown⟩
  rw [fails_congr (run_pushAtLeast_of_exactSums hlen ho)]
  unfold splitExactly
  rw [fails_get_bind_iff]
  simp only [hrev, fails_ofExcept_bind_iff, fails_ofLogged_bind_iff]
  exact Or.inr ⟨acc, hacc, Or.inr ⟨ds, hds, hk.bind⟩⟩

end

end Build

end ThresholdEncoding
