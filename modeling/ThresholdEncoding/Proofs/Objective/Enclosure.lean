import ThresholdEncoding.Proofs.Domain.Scaling
import ThresholdEncoding.Proofs.Encoder.Extremes
import ThresholdEncoding.Proofs.Objective

/-!
# Whether the domain of an objective encloses its values

The bounds of the domain of a term are its exact extremes. Domains that are added one after the other
have all sums. But if there are too many combinations the bounds are added instead, and their sum
saturates. A lower bound may then be lost downwards, to the infinity below everything, which is still
a bound; lost upwards it becomes the infinity above everything, and nothing is enclosed any more.

* `VariableTable.startBound_scaledDomain`: the bounds of the domain of a term.
* `Domain.foldlM_add_spec`: domains that are added have all sums.
* `VariableTable.bounds_sum_iff`: when saturating sums of extremes bound the exact sums.
* `Objective.domain_encloses_iff`: the exact condition under which all values are enclosed.
* `Objective.domain_misses_value`: an objective of which no value is enclosed.
-/

namespace ThresholdEncoding

open Extended (departure?)

/-! ### Bounds in a direction -/

namespace Direction

variable {dir dir' : Direction} {m n : Int}

/-- A value bounds a number on the side that the direction comes from. -/
def Bounds : Direction → Extended → Int → Prop
  | ascending, x, n => x ≤ .fin n
  | descending, x, n => .fin n ≤ x

theorem bounds_fin_iff : dir.Bounds (.fin m) n ↔ ¬ dir.Precedes n m := by
  cases dir <;> simp [Bounds, Precedes]

theorem bounds_infinity_iff : dir.Bounds dir'.infinity n ↔ dir' ≠ dir := by
  cases dir <;> cases dir' <;> simp [Bounds, infinity]

end Direction

/-! ### Adding domains -/

/-- **Domains that are added one after the other** have all sums. -/
theorem Domain.foldlM_add_spec {a c : Domain} {ds : List Domain} (ha : a.Valid)
    (hds : ∀ d ∈ ds, d.Valid) (hc : ds.foldlM add a = .ok c) :
    c.Valid ∧ ∀ u ∈ a, ∀ vs, List.Forall₂ (fun d v => v ∈ d) ds vs → u + vs.sum ∈ c := by
  induction ds generalizing a with
  | nil =>
    cases hc
    refine ⟨ha, fun u hu vs hvs => ?_⟩
    cases hvs
    simpa using hu
  | cons d ds ih =>
    obtain ⟨hd, hds⟩ := List.forall_mem_cons.mp hds
    rw [List.foldlM_cons] at hc
    obtain ⟨s, hs, hc⟩ := Except.bind_eq_ok_iff.mp hc
    obtain ⟨hvalid, -, hsum⟩ := add_spec ha hd hs
    obtain ⟨hcv, hall⟩ := ih hvalid hds hc
    refine ⟨hcv, fun u hu vs hvs => ?_⟩
    obtain ⟨v, vs, hv, hrest, rfl⟩ := List.forall₂_cons_left_iff.mp hvs
    rw [List.sum_cons, ← add_assoc]
    exact hall _ (hsum u hu v hv) vs hrest

/-! ### Domains of terms -/

namespace VariableTable

variable {T : VariableTable} {t : Term} {ts : List Term} {d : Domain} {ds : List Domain}
variable {n : Int}

/-- **The bounds of the domain of a term** are its exact extremes. -/
theorem startBound_scaledDomain (hT : T.Valid) (h : T.scaledDomain t = .ok d) (dir : Direction) :
    d.startBound dir = T.extreme dir t := by
  obtain ⟨hw, e, he, hd⟩ := scaledDomain_eq_ok_iff.mp h
  rw [extreme, he]
  exact (hT _ e he).startBound_scale hw hd dir

/-- The bounds of the domains are what the extremes are computed as, as all of them fit. -/
theorem map_startBound_eq (hT : T.Valid)
    (h : List.Forall₂ (fun t d => T.scaledDomain t = .ok d) ts ds) (dir : Direction) :
    ds.map (·.startBound dir) = (T.extremes dir ts).map Extended.clip := by
  induction h with
  | nil => rfl
  | cons hd _ ih =>
    have hbound := startBound_scaledDomain hT hd dir
    rw [extremes, List.map_cons, List.map_cons, List.map_cons, ← hbound,
      Extended.clip_of_fits (Domain.fits_startBound _ dir), ih]
    rfl

section Terms
variable (h : List.Forall₂ (fun t d => T.scaledDomain t = .ok d) ts ds)
include h

theorem declaresTerms_of_forall₂ : T.DeclaresTerms ts := by
  refine ((List.forall₂_and_left _ _).mp (h.imp fun t d hd => ⟨?_, hd⟩)).1
  obtain ⟨hw, e, he, -⟩ := scaledDomain_eq_ok_iff.mp hd
  exact ⟨declaresInt_iff.mpr ⟨e, he⟩, hw⟩

/-- A sum of values of the terms is a sum of values of their domains. -/
theorem exists_forall₂_of_mem_sums (hn : n ∈ T.sums ts) :
    ∃ vs, List.Forall₂ (fun d v => v ∈ d) ds vs ∧ vs.sum = n := by
  induction h generalizing n with
  | nil => exact ⟨[], .nil, Eq.symm hn⟩
  | cons hd _ ih =>
    obtain ⟨-, e, he, hscale⟩ := scaledDomain_eq_ok_iff.mp hd
    obtain ⟨_, ⟨e', v, he', hv, rfl⟩, m, hm, rfl⟩ := hn
    obtain rfl : e = e' := Option.some.inj (he.symm.trans he')
    obtain ⟨vs, hvs, rfl⟩ := ih hm
    exact ⟨_ :: vs, .cons (Domain.mul_mem_scale hscale hv) hvs, List.sum_cons⟩

end Terms

/-- **A saturating sum of extremes bounds the exact sums** unless the range is first left in the
direction, that is on the far side of the sums. -/
theorem bounds_sum_iff (dir : Direction) (hT : T.Valid) (hts : T.DeclaresTerms ts)
    (hn : n ∈ T.sums ts) :
    dir.Bounds (Extended.sum ((T.extremes dir ts).map Extended.clip)) n ↔
      departure? 0 (T.extremes dir ts) ≠ some dir := by
  rw [Extended.sum_map_clip]
  cases hdep : departure? 0 (T.extremes dir ts) with
  | some dir' =>
    rw [Option.map_some, Option.getD_some, Direction.bounds_infinity_iff, Ne, Ne,
      Option.some.injEq]
  | none =>
    obtain ⟨-, hstart⟩ := starts_sums dir hT hts (Extended.forall_isFinite_of_departure? hdep)
    exact iff_of_true (Direction.bounds_fin_iff.mpr (hstart n hn)) (by simp)

end VariableTable

namespace Objective

open Domain (pairLimit)

variable {o : Objective} {T : VariableTable} {d first : Domain} {ds rest : List Domain}

/-! ### Which way the domain is computed -/

/-- Sizes of which the product can be counted are known. -/
theorem exists_sizes_of_foldlM {acc p : Nat} (h : ds.foldlM (fun acc d => d.size?.bind fun n =>
      if acc * n < Word.positionLimit then some (acc * n) else none) acc = some p) :
    ∃ ns : List Nat, List.Forall₂ (fun (d : Domain) n => d.size? = some n) ds ns ∧
      acc * ns.prod = p := by
  induction ds generalizing acc with
  | nil =>
    exact ⟨[], .nil, (mul_one acc).trans (Option.some.inj h)⟩
  | cons d ds ih =>
    rw [List.foldlM_cons, Option.bind_eq_bind, Option.bind_eq_some_iff] at h
    obtain ⟨q, hq, h⟩ := h
    obtain ⟨n, hn, hq⟩ := Option.bind_eq_some_iff.mp hq
    obtain ⟨-, hq⟩ := Option.ite_none_right_eq_some.mp hq
    obtain rfl := Option.some.inj hq
    obtain ⟨ns, hns, rfl⟩ := ih h
    exact ⟨n :: ns, .cons hn hns, by rw [List.prod_cons, mul_assoc]⟩

/-- Domains with a size are closed. -/
theorem forall_closed_of_sizes (hds : ∀ d ∈ ds, d.Valid) {ns : List Nat}
    (h : List.Forall₂ (fun (d : Domain) n => d.size? = some n) ds ns) :
    ∀ d ∈ ds, d.Valid ∧ d.isOpen = false := by
  intro d hd
  obtain ⟨hsizes, -⟩ := (List.forall₂_and_left _ _).mp (h.imp fun d n hn => ⟨Exists.intro n hn, hn⟩)
  obtain ⟨n, hn⟩ := hsizes d hd
  exact ⟨hds d hd, (hds d hd).isOpen_of_size? hn⟩

/-- The test on the product of the sizes recognizes small objectives. -/
theorem small_iff_any (hT : T.Valid)
    (h : List.Forall₂ (fun t d => T.scaledDomain t = .ok d) o.terms ds) (hlen : ds.length ≠ 1) :
    o.Small T ↔ (sizeProduct? ds).any (· ≤ pairLimit) = true := by
  rw [Option.any_eq_true]
  simp only [decide_eq_true_eq]
  constructor
  · rintro (hone | ⟨ns, hns, hle⟩)
    · exact absurd (h.length_eq.symm.trans hone) hlen
    · have hsizes := (forall₂_result_iff h).mp hns
      have hvalid := fun d hd => (forall_spec_of_scaledDomain hT h d hd).1
      have hclosed := forall_closed_of_sizes hvalid hsizes
      rw [← combinations_eq_prod hclosed hsizes] at hle
      exact ⟨_, sizeProduct?_eq hclosed hle, hle⟩
  · rintro ⟨p, hp, hle⟩
    obtain ⟨ns, hns, rfl⟩ := exists_sizes_of_foldlM hp
    rw [one_mul] at hle
    exact Or.inr ⟨ns, (forall₂_result_iff h).mpr hns, hle⟩

/-- An objective with a domain has domains for its terms, which are added or of which the bounds are
added. -/
theorem exists_of_domain_eq_some (hT : T.Valid) (hd : (o.domain T).value = .ok (some d)) :
    ∃ first rest, List.Forall₂ (fun t d => T.scaledDomain t = .ok d) o.terms (first :: rest) ∧
      (o.Small T ∧ rest.foldlM Domain.add first = .ok d ∨
        ¬ o.Small T ∧ d = .interval (.sum ((first :: rest).map (·.startBound .ascending)))
          (.sum ((first :: rest).map (·.startBound .descending)))) := by
  unfold domain at hd
  rw [LoggedExcept.value_bind, LoggedExcept.value_lift] at hd
  obtain ⟨ds, hds, hd⟩ := Except.bind_eq_ok_iff.mp hd
  have hterms := List.mapM_eq_ok_iff.mp hds
  match ds with
  | [] => cases hd
  | [e] =>
    cases hd
    exact ⟨d, [], hterms, Or.inl ⟨Or.inl hterms.length_eq, rfl⟩⟩
  | first :: second :: rest =>
    simp only [LoggedExcept.value_bind, LoggedExcept.value_mapError] at hd
    obtain ⟨e, he, hd⟩ := Except.bind_eq_ok_iff.mp hd
    cases hd
    replace he := Except.mapError_eq_ok_iff.mp he
    refine ⟨first, second :: rest, hterms, ?_⟩
    rw [small_iff_any hT hterms (by simp)]
    unfold sumDomain at he
    split_ifs at he with hsmall
    · rw [LoggedExcept.value_foldlM] at he
      simp only [Domain.value_addLogged] at he
      exact Or.inl ⟨hsmall, he⟩
    · exact Or.inr ⟨hsmall, (Except.ok.inj he).symm⟩

/-! ### The condition -/

/-- **The exact condition under which the domain of an objective encloses its values.** The exact
infima and suprema of the terms are added from the left. The domain encloses the value of every
assignment if the objective is small, or if the sum of the infima does not leave the 64 bit range
first above and that of the suprema not first below. Otherwise it encloses the value of none. -/
theorem domain_encloses_iff (o : Objective) (hT : T.Valid)
    (hd : (o.domain T).value = .ok (some d)) (ν : Valuation)
    (hν : ∀ t ∈ o.terms, ∃ e, T.domain? t.var = some e ∧ ν.int t.var ∈ e) :
    (∀ t ∈ o.terms, ∀ dir : Direction, dir.Starts (T.values t) (T.extreme dir t)) ∧
    (d.lower ≤ .fin (ν.sum o.terms) ∧ .fin (ν.sum o.terms) ≤ d.upper ↔
      o.Small T ∨ departure? 0 (T.extremes .ascending o.terms) ≠ some .ascending ∧
        departure? 0 (T.extremes .descending o.terms) ≠ some .descending) := by
  obtain ⟨first, rest, hterms, hcases⟩ := exists_of_domain_eq_some hT hd
  have hdecl := VariableTable.declaresTerms_of_forall₂ hterms
  have hn := VariableTable.sum_mem_sums hν
  refine ⟨fun t ht dir => VariableTable.starts_extreme hT (hdecl t ht).1 (hdecl t ht).2 dir, ?_⟩
  rcases hcases with ⟨hsmall, hadd⟩ | ⟨hlarge, rfl⟩
  · refine iff_of_true ?_ (Or.inl hsmall)
    obtain ⟨hfirst, hrest⟩ :=
      List.forall_mem_cons.mp fun d hd => (forall_spec_of_scaledDomain hT hterms d hd).1
    obtain ⟨hvalid, hall⟩ := Domain.foldlM_add_spec hfirst hrest hadd
    obtain ⟨vs, hvs, hsum⟩ := VariableTable.exists_forall₂_of_mem_sums hterms hn
    obtain ⟨v, us, hv, hus, rfl⟩ := List.forall₂_cons_left_iff.mp hvs
    rw [← hsum, List.sum_cons]
    exact hvalid.between (hall v hv us hus)
  · rw [or_iff_right hlarge, VariableTable.map_startBound_eq hT hterms,
      VariableTable.map_startBound_eq hT hterms,
      Domain.lower_interval (Extended.fits_sum _), Domain.upper_interval (Extended.fits_sum _)]
    exact and_congr (VariableTable.bounds_sum_iff .ascending hT hdecl hn)
      (VariableTable.bounds_sum_iff .descending hT hdecl hn)

/-- Three variables of one value each, of which the sum leaves the range on the way and comes back,
and one of so many values that the bounds are added. -/
def driftTable : VariableTable where
  ints := [⟨.interval (.fin 4611686018427387904) (.fin 4611686018427387904), false⟩,
    ⟨.interval (.fin 4611686018427387904) (.fin 4611686018427387904), false⟩,
    ⟨.interval (.fin (-4611686018427387905)) (.fin (-4611686018427387905)), false⟩,
    ⟨.interval (.fin 0) (.fin 10000), false⟩]

/-- Both large numbers come first, … -/
def driftingObjective : Objective where
  terms := [⟨⟨0, false⟩, 1⟩, ⟨⟨1, false⟩, 1⟩, ⟨⟨2, false⟩, 1⟩, ⟨⟨3, false⟩, 1⟩]

/-- … or the small one comes between them. -/
def steadyObjective : Objective where
  terms := [⟨⟨0, false⟩, 1⟩, ⟨⟨2, false⟩, 1⟩, ⟨⟨1, false⟩, 1⟩, ⟨⟨3, false⟩, 1⟩]

/-- The single values, and the least one of the last variable. -/
def driftValuation : Valuation where
  int x := [4611686018427387904, 4611686018427387904, -4611686018427387905, 0].getD x.index 0
  bool _ := false

theorem valid_driftTable : driftTable.Valid := VariableTable.valid_of_forall (by decide)

theorem driftValuation_mem {x : IntVar} (hx : x.index < 4 ∧ x.introduced = false) :
    ∃ e, driftTable.domain? x = some e ∧ driftValuation.int x ∈ e := by
  obtain ⟨i, introduced⟩ := x
  obtain ⟨hi, rfl⟩ : i < 4 ∧ introduced = false := hx
  interval_cases i <;> exact ⟨_, rfl, Domain.mem_interval_iff.mpr (by decide)⟩

/-- In a good order of the terms all values are enclosed. -/
theorem domain_encloses_iff_steady :
    Domain.lower (.interval (.fin 4611686018427387903) (.fin 4611686018427397903)) ≤
        .fin (driftValuation.sum steadyObjective.terms) ∧
      .fin (driftValuation.sum steadyObjective.terms) ≤
        Domain.upper (.interval (.fin 4611686018427387903) (.fin 4611686018427397903)) := by
  have hd : (steadyObjective.domain driftTable).value =
      .ok (some (.interval (.fin 4611686018427387903) (.fin 4611686018427397903))) := by cbv
  have hν : ∀ t ∈ steadyObjective.terms,
      ∃ e, driftTable.domain? t.var = some e ∧ driftValuation.int t.var ∈ e := fun t ht =>
    driftValuation_mem ((by decide : ∀ t ∈ steadyObjective.terms,
      t.var.index < 4 ∧ t.var.introduced = false) t ht)
  exact (domain_encloses_iff steadyObjective valid_driftTable hd driftValuation hν).2.mpr
    (Or.inr ⟨by decide, by decide⟩)

/-- **The domain of an objective may miss its values**: in the other order the domain lies between
infinities above everything, although the value `2 ^ 62 - 1` is taken. -/
theorem domain_misses_value :
    driftTable.Valid ∧
    (driftingObjective.domain driftTable).value = .ok (some (.interval .posInf .posInf)) ∧
    (∀ t ∈ driftingObjective.terms,
      ∃ e, driftTable.domain? t.var = some e ∧ driftValuation.int t.var ∈ e) ∧
    driftValuation.sum driftingObjective.terms = 4611686018427387903 ∧
    ¬ Domain.lower (.interval .posInf .posInf) ≤ .fin 4611686018427387903 := by
  refine ⟨valid_driftTable, by cbv, fun t ht => ?_, by decide, by decide⟩
  exact driftValuation_mem ((by decide : ∀ t ∈ driftingObjective.terms,
    t.var.index < 4 ∧ t.var.introduced = false) t ht)

end Objective

end ThresholdEncoding
