import Mathlib.Algebra.Group.Pointwise.Set.Card
import ThresholdEncoding.Objective
import ThresholdEncoding.Proofs.Domain.CanonicalSum
import ThresholdEncoding.Proofs.Instance.Splitting

/-!
# The values of an objective

The domain of an objective is computed by adding the domains of its terms one after the other, if
the product of their sizes is small. Then no step approximates: a sum of two sets has at most as
many members as there are pairs, so the product of the size reached so far and of the sizes to come
never grows. As no domain is empty, the pairs of a step are at most that product.

* `Domain.valueSet`: the values as a set, of which sums are taken pointwise.
* `Valid.valueSet_add`: one step.
* `valueSet_foldlM`: all steps.
* `Objective.mem_domain_iff`: the values of a small objective.
-/

namespace ThresholdEncoding

open scoped Pointwise

namespace Domain

variable {a b c d : Domain} {ds : List Domain} {n : Nat} {u : Int}

/-- The values of a domain. -/
def valueSet (d : Domain) : Set Int := {v | v ∈ d}

/-! ### Sizes -/

theorem Enumeration.card_valueSet {g : Nat → Int} (h : d.Enumeration n g) :
    Nat.card d.valueSet = n := by
  have hset : d.valueSet = ((Finset.range n).image g : Finset Int) := by
    ext v
    simp [valueSet, h.mem_iff]
  have hinj : Set.InjOn g (Finset.range n) := by
    intro j hj k hk heq
    rw [Finset.coe_range, Set.mem_Iio] at hj hk
    rcases lt_trichotomy j k with hlt | rfl | hlt
    · exact absurd heq (h.strict hlt hk).ne
    · rfl
    · exact absurd heq (h.strict hlt hj).ne'
  rw [hset, Nat.card_coe_set_eq, Set.ncard_coe_finset, Finset.card_image_of_injOn hinj,
    Finset.card_range]

section Sizes
variable (h : d.Valid) (hc : d.isOpen = false)
include h hc

theorem Valid.card_pos : 0 < Nat.card d.valueSet := by
  obtain ⟨n, g, hg⟩ := h.exists_enumeration hc
  rw [hg.card_valueSet]
  exact hg.pos

theorem Valid.card_of_size? (hn : d.size? = some n) : Nat.card d.valueSet = n := by
  obtain ⟨m, g, hg⟩ := h.exists_enumeration hc
  rw [hg.card_valueSet, hg.size_limit hn]

theorem Valid.size?_of_card (hlt : Nat.card d.valueSet < Word.positionLimit) :
    d.size? = some (Nat.card d.valueSet) := by
  obtain ⟨m, g, hg⟩ := h.exists_enumeration hc
  rw [hg.card_valueSet] at hlt ⊢
  exact hg.size_eq hlt

end Sizes

/-! ### One step -/

section Step
variable (ha : a.Valid) (hb : b.Valid) (hca : a.isOpen = false) (hcb : b.isOpen = false)
include ha hb hca hcb

theorem Valid.pairs_le (hsmall : Nat.card a.valueSet * Nat.card b.valueSet ≤ pairLimit) :
    a.pairs b ≤ pairLimit := by
  have hleft := Nat.le_mul_of_pos_right (Nat.card a.valueSet) (hb.card_pos hcb)
  have hright := Nat.le_mul_of_pos_left (Nat.card b.valueSet) (ha.card_pos hca)
  have hlimit : pairLimit < Word.positionLimit := by decide
  unfold pairs
  simp only [ha.size?_of_card hca (by omega), hb.size?_of_card hcb (by omega)]
  exact (min_le_left _ _).trans hsmall

/-- **One step** has the sums of both sets as values, if there are few pairs. -/
theorem Valid.valueSet_add (hpairs : a.pairs b ≤ pairLimit) (hc : a.add b = .ok c) :
    c.valueSet = a.valueSet + b.valueSet := by
  have hda : a.isOpenOther = false := isOpenOther_eq_false_iff.mpr (Or.inl hca)
  have hdb : b.isOpenOther = false := isOpenOther_eq_false_iff.mpr (Or.inl hcb)
  obtain ⟨-, -, hull, hhull, -⟩ := add_eq_ok hc
  obtain ⟨lo, hi, hlo, hhi, -⟩ := addBounds_eq_ok hhull
  have hlow := (Extended.add?_eq_some_iff.mp hlo).1
  have hup := (Extended.add?_eq_some_iff.mp hhi).1
  rw [add_of_fits hda hdb hlow hup, Except.ok.injEq] at hc
  subst hc
  ext v
  split_ifs with hbounds
  · -- there are few pairs, so the bounds suffice because both sets have no gaps
    have hunit : a.isUnitInterval = true ∧ b.isUnitInterval = true := by
      simpa [boundsSuffice, hca, hcb, hpairs.not_gt] using hbounds
    exact (ha.represents_interval hb hca hcb hunit.1 hunit.2).mem_iff v
  · exact (ha.represents_ofIncreasing_sums hb hca hcb hpairs).mem_iff v

end Step

/-! ### All steps -/

/-- The number of ways to take a value from each domain. -/
noncomputable def combinations (ds : List Domain) : Nat :=
  (ds.map fun d => Nat.card d.valueSet).prod

theorem combinations_cons : combinations (d :: ds) = Nat.card d.valueSet * combinations ds := by
  simp [combinations]

theorem combinations_pos (hds : ∀ d ∈ ds, d.Valid ∧ d.isOpen = false) : 0 < combinations ds := by
  refine List.prod_pos ?_
  simp only [List.mem_map, forall_exists_index, and_imp]
  rintro _ d hd rfl
  exact (hds d hd).1.card_pos (hds d hd).2

/-- **All steps**: what is reached at first is added to a value from each further domain. -/
theorem valueSet_foldlM (ha : a.Valid) (hca : a.isOpen = false)
    (hds : ∀ d ∈ ds, d.Valid ∧ d.isOpen = false)
    (hsmall : Nat.card a.valueSet * combinations ds ≤ pairLimit)
    (hc : ds.foldlM add a = .ok c) : c.valueSet = a.valueSet + (ds.map valueSet).sum := by
  induction ds generalizing a with
  | nil =>
    cases hc
    simp
  | cons d ds ih =>
    obtain ⟨⟨hd, hcd⟩, hds⟩ := List.forall_mem_cons.mp hds
    rw [List.foldlM_cons] at hc
    obtain ⟨s, hs, hc⟩ := Except.bind_eq_ok_iff.mp hc
    rw [combinations_cons, ← mul_assoc] at hsmall
    have hpairs : Nat.card a.valueSet * Nat.card d.valueSet ≤ pairLimit :=
      (Nat.le_mul_of_pos_right _ (combinations_pos hds)).trans hsmall
    have hset := ha.valueSet_add hd hca hcd (ha.pairs_le hd hca hcd hpairs) hs
    have hcard : Nat.card s.valueSet * combinations ds ≤ pairLimit := by
      rw [hset]
      exact (Nat.mul_le_mul_right _ Set.natCard_add_le).trans hsmall
    obtain ⟨hvalid, hclosed, -⟩ := add_spec ha hd hs
    rw [ih hvalid (hclosed hca hcd) hds hcard hc, hset, List.map_cons, List.sum_cons, add_assoc]

/-- The members of a sum of sets are the sums of a member of each. -/
theorem mem_sum_valueSet_iff :
    u ∈ (ds.map valueSet).sum ↔ ∃ vs, List.Forall₂ (fun d v => v ∈ d) ds vs ∧ vs.sum = u := by
  induction ds generalizing u with
  | nil => simp [eq_comm]
  | cons d ds ih =>
    simp only [List.map_cons, List.sum_cons, Set.mem_add, ih, List.forall₂_cons_left_iff]
    constructor
    · rintro ⟨v, hv, _, ⟨vs, hvs, rfl⟩, rfl⟩
      exact ⟨v :: vs, ⟨v, vs, hv, hvs, rfl⟩, rfl⟩
    · rintro ⟨_, ⟨v, vs, hv, hvs, rfl⟩, rfl⟩
      exact ⟨v, hv, _, ⟨vs, hvs, rfl⟩, rfl⟩

end Domain

/-! ### Objectives -/

/-- What holds of the results of the elements holds of the list of results. -/
theorem forall₂_result_iff {ε α β γ : Type} {f : α → Except ε β} {R : β → γ → Prop} {l : List α}
    {r : List β} (h : List.Forall₂ (fun a b => f a = .ok b) l r) {cs : List γ} :
    List.Forall₂ (fun a c => ∃ b, f a = .ok b ∧ R b c) l cs ↔ List.Forall₂ R r cs := by
  induction h generalizing cs with
  | nil => simp
  | cons hab _ ih =>
    simp only [List.forall₂_cons_left_iff, ih, hab, Except.ok.injEq, exists_eq_left']

namespace Objective

open Domain (pairLimit valueSet combinations)

variable {o : Objective} {T : VariableTable} {d first : Domain} {ds rest : List Domain}

/-- The objective has a single term, or there are few ways to take a value from the domain of each
term. -/
def Small (o : Objective) (T : VariableTable) : Prop :=
  o.terms.length = 1 ∨ ∃ ns : List Nat,
    List.Forall₂ (fun t n => ∃ e, T.scaledDomain t = .ok e ∧ e.size? = some n) o.terms ns ∧
      ns.prod ≤ pairLimit

/-- The domains of terms are valid if those of their variables are, and then closed if those are. -/
theorem forall_spec_of_scaledDomain {ts : List Term} (hT : T.Valid)
    (h : List.Forall₂ (fun t d => T.scaledDomain t = .ok d) ts ds) :
    ∀ d ∈ ds, d.Valid ∧ (T.Closed → d.isOpen = false) := by
  induction h with
  | nil => simp
  | cons hd _ ih =>
    obtain ⟨hvalid, hopen, -⟩ := VariableTable.scaledDomain_spec hT hd
    exact List.forall_mem_cons.mpr ⟨⟨hvalid, hopen⟩, ih⟩

theorem forall_valid_of_scaledDomain {ts : List Term} (hT : T.Valid) (hclosed : T.Closed)
    (h : List.Forall₂ (fun t d => T.scaledDomain t = .ok d) ts ds) :
    ∀ d ∈ ds, d.Valid ∧ d.isOpen = false :=
  fun d hd => (forall_spec_of_scaledDomain hT h d hd).imp_right fun hopen => hopen hclosed

/-- Sizes that can be counted count the ways to take a value from each domain. -/
theorem combinations_eq_prod (hds : ∀ d ∈ ds, d.Valid ∧ d.isOpen = false) {ns : List Nat}
    (h : List.Forall₂ (fun (d : Domain) n => d.size? = some n) ds ns) :
    combinations ds = ns.prod := by
  induction h with
  | nil => rfl
  | cons hn _ ih =>
    obtain ⟨⟨hd, hcd⟩, hds⟩ := List.forall_mem_cons.mp hds
    rw [Domain.combinations_cons, List.prod_cons, ih hds, hd.card_of_size? hcd hn]

/-- The induction behind `sizeProduct?_eq`, from any product reached so far. -/
theorem foldlM_sizes (hds : ∀ d ∈ ds, d.Valid ∧ d.isOpen = false) {acc : Nat} (hacc : 0 < acc)
    (hsmall : acc * combinations ds ≤ pairLimit) :
    (ds.foldlM (fun acc d => d.size?.bind fun n =>
      if acc * n < Word.positionLimit then some (acc * n) else none) acc) =
        some (acc * combinations ds) := by
  induction ds generalizing acc with
  | nil => simp [combinations]
  | cons d ds ih =>
    obtain ⟨⟨hd, hcd⟩, hds⟩ := List.forall_mem_cons.mp hds
    rw [Domain.combinations_cons, ← mul_assoc] at hsmall ⊢
    have hpos := Nat.mul_pos hacc (hd.card_pos hcd)
    have hacc' : acc * Nat.card d.valueSet ≤ pairLimit :=
      (Nat.le_mul_of_pos_right _ (Domain.combinations_pos hds)).trans hsmall
    have hcard := (Nat.le_mul_of_pos_left (Nat.card d.valueSet) hacc).trans hacc'
    have hlimit : pairLimit < Word.positionLimit := by decide
    rw [List.foldlM_cons, hd.size?_of_card hcd (by omega), Option.bind_some,
      if_pos (by omega)]
    exact ih hds hpos hsmall

theorem sizeProduct?_eq (hds : ∀ d ∈ ds, d.Valid ∧ d.isOpen = false)
    (hsmall : combinations ds ≤ pairLimit) : sizeProduct? ds = some (combinations ds) :=
  (foldlM_sizes hds one_pos (by rwa [one_mul])).trans (by rw [one_mul])

/-- Few values are added exactly. -/
theorem valueSet_sumDomain (hds : ∀ d ∈ first :: rest, d.Valid ∧ d.isOpen = false)
    (hsmall : combinations (first :: rest) ≤ pairLimit)
    (hd : (sumDomain first rest).value = .ok d) :
    d.valueSet = ((first :: rest).map valueSet).sum := by
  have hany : (sizeProduct? (first :: rest)).any (· ≤ pairLimit) = true := by
    simp [sizeProduct?_eq hds hsmall, hsmall]
  rw [sumDomain, if_pos hany, LoggedExcept.value_foldlM] at hd
  simp only [Domain.value_addLogged] at hd
  obtain ⟨hfirst, hrest⟩ := List.forall_mem_cons.mp hds
  rw [Domain.combinations_cons] at hsmall
  exact Domain.valueSet_foldlM hfirst.1 hfirst.2 hrest hsmall hd

/-- **The values of a small objective** are the sums of one value from the domain of each term. -/
theorem mem_domain_iff (hT : T.Valid) (hclosed : T.Closed) (hsmall : o.Small T)
    (hd : (o.domain T).value = .ok (some d)) (u : Int) : u ∈ d ↔ ∃ vs : List Int,
      List.Forall₂ (fun t v => ∃ e, T.scaledDomain t = .ok e ∧ v ∈ e) o.terms vs ∧
        vs.sum = u := by
  unfold domain at hd
  rw [LoggedExcept.value_bind, LoggedExcept.value_lift] at hd
  obtain ⟨ds, hds, hd⟩ := Except.bind_eq_ok_iff.mp hd
  have hterms := List.mapM_eq_ok_iff.mp hds
  have hvalid := forall_valid_of_scaledDomain hT hclosed hterms
  have hset : d.valueSet = (ds.map valueSet).sum := by
    match ds with
    | [] => cases hd
    | [e] =>
      cases hd
      simp
    | first :: second :: rest =>
      simp only [LoggedExcept.value_bind, LoggedExcept.value_mapError] at hd
      obtain ⟨e, he, hd⟩ := Except.bind_eq_ok_iff.mp hd
      cases hd
      refine valueSet_sumDomain hvalid ?_ (Except.mapError_eq_ok_iff.mp he)
      rcases hsmall with hone | ⟨ns, hns, hle⟩
      · rw [hterms.length_eq] at hone
        simp at hone
      · rwa [combinations_eq_prod hvalid ((forall₂_result_iff hterms).mp hns)]
  have hu : u ∈ d ↔ u ∈ d.valueSet := Iff.rfl
  simp only [hu, hset, Domain.mem_sum_valueSet_iff, forall₂_result_iff hterms]

/-- Variables with the values `0`, `5` and `1`, `2`. -/
def pairTable : VariableTable where
  ints := [⟨{ shape := .listed [0, 5] }, false⟩, ⟨{ shape := .interval (.fin 1) (.fin 2) }, false⟩]

/-- The values of `-x + y` for these variables have gaps. -/
theorem mem_domain_iff_pair :
    let o : Objective := { terms := [⟨⟨0, false⟩, -1⟩, ⟨⟨1, false⟩, 1⟩] }
    let d : Domain := { shape := .listed [-4, -3, 1, 2] }
    (o.domain pairTable).value = .ok (some d) ∧ ∀ u : Int, u ∈ d ↔ ∃ vs : List Int,
      List.Forall₂ (fun t v => ∃ e, pairTable.scaledDomain t = .ok e ∧ v ∈ e) o.terms vs ∧
        vs.sum = u := by
  intro o d
  have hd : (o.domain pairTable).value = .ok (some d) := by cbv
  have hsmall : o.Small pairTable :=
    Or.inr ⟨[2, 2], .cons ⟨_, rfl, rfl⟩ (.cons ⟨_, rfl, rfl⟩ .nil), by decide⟩
  exact ⟨hd, mem_domain_iff (VariableTable.valid_of_forall (by decide))
    (VariableTable.closed_of_forall (by decide)) hsmall hd⟩

end Objective

end ThresholdEncoding
