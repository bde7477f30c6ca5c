import ThresholdEncoding.Proofs.Instance.Request

/-!
# Which failing requests leave traces

Requests check their arguments before anything is changed, and the domains for a split are computed
first. Still a request may break off midway: an exact sum is declared before a weight turns out to
have no opposite, the first half of an equality is added before the domains for the second half are
computed, and a disequality declares its boolean variable before either.

* `Build.FailsMidway`: a failure that leaves a changed instance.
* `Request.BreaksOff`, `breaksOff_iff`: exactly the requests that do so.
-/

namespace ThresholdEncoding

namespace Build

open Instance

variable {α β : Type} {i j k : Instance} {ts us : List Term} {bound bound' : Int} {a : Nat}
variable {r r' : Option Reification} {xs : List IntVar}

/-- The computation fails and leaves a changed instance. -/
def FailsMidway (x : Build α) (i : Instance) : Prop := ∃ k, x.Fails i k ∧ k ≠ i

/-! ### Checks -/

section
variable {x : Build α} {f : Unit → Build β} {g : List Term → Build β} {h : Int → Build β} {n : Int}

theorem Yields.not_failsMidway {b : α} (hx : x.Yields i b j) : ¬ x.FailsMidway i :=
  fun ⟨_, hk, _⟩ => hx.not_fails hk

theorem failsMidway_forget_iff : x.forget.FailsMidway i ↔ x.FailsMidway i := by
  refine exists_congr fun k => and_congr_left fun _ => ?_
  unfold forget
  rw [fails_bind_iff]
  simp

/-- What happens before a check has passed leaves no trace. -/
theorem failsMidway_of_check {x y : Build β} {P : Prop}
    (hx : ∀ k, x.Fails i k ↔ ¬ P ∧ k = i ∨ P ∧ y.Fails i k) :
    x.FailsMidway i ↔ P ∧ y.FailsMidway i := by
  unfold FailsMidway
  simp only [hx]
  constructor
  · rintro ⟨k, ⟨-, rfl⟩ | ⟨hP, hk⟩, hne⟩
    · exact absurd rfl hne
    · exact ⟨hP, k, hk, hne⟩
  · rintro ⟨hP, k, hk, hne⟩; exact ⟨k, Or.inr ⟨hP, hk⟩, hne⟩

theorem failsMidway_require_bind_iff {c : VariableTable → Except InstanceError Unit} :
    (require c >>= f).FailsMidway i ↔ c i.table = .ok () ∧ (f ()).FailsMidway i :=
  failsMidway_of_check fun _ => fails_require_bind_iff

theorem not_failsMidway_require {c : VariableTable → Except InstanceError Unit}
    (hf : ¬ (f ()).FailsMidway i) : ¬ (require c >>= f).FailsMidway i :=
  fun h => hf (failsMidway_require_bind_iff.mp h).2

theorem not_failsMidway_modifyGet {m : Instance → α × Instance} :
    ¬ (modifyGet m : Build α).FailsMidway i := by
  rintro ⟨k, ⟨⟨err, h⟩, -⟩, -⟩
  cases h

theorem failsMidway_negAll_bind_iff : (ofExcept (Term.negAll ts) >>= g).FailsMidway i ↔
    (∀ t ∈ ts, Word.Fits (-t.weight)) ∧ (g (ts.map (- ·))).FailsMidway i :=
  failsMidway_of_check fun _ => fails_negAll_bind_iff

theorem failsMidway_checked_bind_iff : (ofExcept (InstanceError.checked n) >>= h).FailsMidway i ↔
    Word.Fits n ∧ (h n).FailsMidway i :=
  failsMidway_of_check fun _ => fails_checked_bind_iff

end

/-! ### Constraints -/

theorem length_lt_of_pushAtLeast (h : (pushAtLeast ts bound r).Yields i a k) :
    i.constraints.length < k.constraints.length := by
  by_cases hk : i.Keeps ts
  · rw [yields_congr (run_pushAtLeast_of_keeps hk)] at h
    obtain ⟨-, rfl⟩ := yields_push_iff.mp h
    simp [Instance.push]
  · obtain ⟨j, us, ⟨cs, hj, -⟩, -, -, rfl⟩ := pushAtLeast_short hk h
    simp only [Instance.push, hj, List.length_append, List.length_singleton]
    omega

section
variable (hi : i.Sound)
include hi

theorem failsMidway_pushAtLeast_iff :
    (pushAtLeast ts bound r).FailsMidway i ↔ i.Splits ts ∧ i.Stuck ts := by
  constructor
  · intro hmid
    have hs : i.Splits ts := by
      by_contra hs
      obtain ⟨k, hk, hne⟩ := hmid
      exact hne (hk.unique (fails_pushAtLeast hs))
    refine ⟨hs, ?_⟩
    by_contra hst
    obtain ⟨a, k, hk⟩ := exists_pushAtLeast bound r hi hs hst
    exact hk.not_failsMidway hmid
  · rintro ⟨hs, hst⟩
    exact exists_fails_pushAtLeast bound r hi hs hst

variable (hts : i.table.DeclaresTerms ts) (hus : i.table.DeclaresTerms us)
variable (hfit : ∀ t ∈ ts, Word.Fits (-t.weight)) (hfit' : ∀ t ∈ us, Word.Fits (-t.weight))
include hts hus hfit hfit'

variable (bound bound' r r') in
/-- Two constraints are appended, if no weight is in the way, just when both can be split. -/
theorem exists_pushAtLeast_pushAtLeast_iff
    (hr : ∀ l, r = some l → i.table.declaresBool l.var = true) :
    (∃ a k, (pushAtLeast ts bound r >>= fun _ => pushAtLeast us bound' r').Yields i a k) ↔
      i.Splits ts ∧ i.Splits us := by
  constructor
  · rintro ⟨a, k, h⟩
    obtain ⟨a', j, h1, h2⟩ := yields_bind_iff.mp h
    have hext := (pushAtLeast_reduces hi ⟨hts, hr⟩ h1).extends_
    refine ⟨by_contra fun hs => h1.not_fails (fails_pushAtLeast hs), ?_⟩
    rw [← hext.splits_iff hus]
    exact by_contra fun hs => h2.not_fails (fails_pushAtLeast hs)
  · rintro ⟨hs, hs'⟩
    obtain ⟨a', j, h1⟩ := exists_pushAtLeast bound r hi hs (not_stuck hfit)
    have hred := pushAtLeast_reduces hi ⟨hts, hr⟩ h1
    rw [← hred.extends_.splits_iff hus] at hs'
    obtain ⟨a, k, h2⟩ := exists_pushAtLeast bound' r' hred.sound hs' (not_stuck hfit')
    exact ⟨a, k, h1.bind h2⟩

/-- The second of two constraints may fail after the first one has been added. -/
theorem failsMidway_pushAtLeast_pushAtLeast_iff :
    (pushAtLeast ts bound none >>= fun _ => pushAtLeast us bound' none).FailsMidway i ↔
      i.Splits ts ∧ ¬ i.Splits us := by
  have hboth := exists_pushAtLeast_pushAtLeast_iff bound bound' none none hi hts hus hfit hfit'
    (by simp)
  constructor
  · rintro ⟨k, hk, hne⟩
    have hs : i.Splits ts := by
      by_contra hs
      exact hne (hk.unique (fails_pushAtLeast hs).bind)
    refine ⟨hs, fun hs' => ?_⟩
    obtain ⟨a, k', h⟩ := hboth.mpr ⟨hs, hs'⟩
    exact h.not_fails hk
  · rintro ⟨hs, hs'⟩
    obtain ⟨a, j, h⟩ := exists_pushAtLeast bound none hi hs (not_stuck hfit)
    rw [← (pushAtLeast_reduces hi ⟨hts, by simp⟩ h).extends_.splits_iff hus] at hs'
    refine ⟨j, h.bind_fails (fails_pushAtLeast hs'), ?_⟩
    rintro rfl
    exact lt_irrefl _ (length_lt_of_pushAtLeast h)

theorem exists_either_iff (bound bound' : Int) :
    (∃ a k, (either ts bound us bound').Yields i a k) ↔ i.Splits ts ∧ i.Splits us := by
  have hext : i.Extends (i.addBool true) := extends_addBool
  rw [← hext.splits_iff hts, ← hext.splits_iff hus]
  exact exists_pushAtLeast_pushAtLeast_iff bound bound' (some ⟨i.table.nextBool true, true⟩)
    (some ⟨i.table.nextBool true, false⟩) (hi.addBool true)
    (hext.table.declaresTerms hts) (hext.table.declaresTerms hus) hfit hfit'
    (declares_either bound true hts).reification

/-- A boolean variable has been declared before either of two constraints fails. -/
theorem failsMidway_either_iff :
    (either ts bound us bound').FailsMidway i ↔ ¬ (i.Splits ts ∧ i.Splits us) := by
  rw [← exists_either_iff hi hts hus hfit hfit' bound bound']
  constructor
  · rintro ⟨k, hk, -⟩ ⟨a, k', h⟩; exact h.not_fails hk
  · intro hno
    rcases yields_or_fails (either ts bound us bound') i with ⟨a, h⟩ | h
    · exact absurd ⟨a, _, h⟩ hno
    · refine ⟨_, h, fun heq => ?_⟩
      have hsteps : (i.addBool true).Steps ((either ts bound us bound').after i) :=
        (proceeds_pushAtLeast_pushAtLeast (hi.addBool true) (declares_either bound true hts)
          (declares_either bound' false hus)).steps
      have hlen := hsteps.table.bools.length_le
      rw [heq] at hlen
      simp [Instance.addBool, VariableTable.addBool] at hlen

end

theorem exists_differentPairs {ps : List (IntVar × IntVar)} (hi : i.Sound) (hps : ∀ p ∈ ps,
    i.table.declaresInt p.1 = true ∧ i.table.declaresInt p.2 = true) (a : Nat) :
    ∃ b k, (differentPairs a ps).Yields i b k := by
  induction ps generalizing i a with
  | nil => exact ⟨a, i, yields_pure_iff.mpr ⟨rfl, rfl⟩⟩
  | cons p ps ih =>
    obtain ⟨x, y⟩ := p
    obtain ⟨⟨hx, hy⟩, hps⟩ := List.forall_mem_cons.mp hps
    have hts := declares_pair hx hy (show (1 : Int) ≠ 0 by decide)
    have hus := declares_pair hx hy (show (-1 : Int) ≠ 0 by decide)
    have hfit : ∀ w : Int, Word.Fits w → Word.Fits (-w) →
        ∀ t ∈ ([⟨x, w⟩, ⟨y, -w⟩] : List Term), Word.Fits (-t.weight) := by
      intro w h1 h2
      simpa using ⟨h2, h1⟩
    have hshort : ∀ w w', i.Splits [⟨x, w⟩, ⟨y, w'⟩] := fun w w' =>
      Or.inl (Or.inl (show 2 ≤ termLimit by decide))
    obtain ⟨b, j, h⟩ := (exists_either_iff hi hts hus (hfit 1 (by decide) (by decide))
      (hfit (-1) (by decide) (by decide)) 1 1).mpr ⟨hshort _ _, hshort _ _⟩
    have hred := either_reduces hi hts hus h
    obtain ⟨c, k, h'⟩ := ih hred.sound (fun p hp => ⟨hred.extends_.table.declaresInt (hps p hp).1,
      hred.extends_.table.declaresInt (hps p hp).2⟩) b
    rw [differentPairs_cons]
    exact ⟨c, k, h.bind h'⟩

theorem not_failsMidway_allDifferent (hi : i.Sound) : ¬ (allDifferent xs).FailsMidway i := by
  unfold allDifferent
  split_ifs
  · rintro ⟨k, ⟨-, rfl⟩, hne⟩; exact hne rfl
  · rw [failsMidway_require_bind_iff, List.forM_eq_ok_iff]
    simp only [VariableTable.requireInt_eq_ok_iff]
    rintro ⟨hxs, hmid⟩
    obtain ⟨b, k, h⟩ := exists_differentPairs hi (forall_mem_pairsOf_declared hxs) 0
    exact h.not_failsMidway hmid

end Build

/-! ### Requests -/

namespace Request

open Build

variable {i : Instance} {r : Request}

/-- The request is refused only after the instance has been changed. -/
def BreaksOff (i : Instance) : Request → Prop
  | atLeast ts _ => i.table.DeclaresTerms ts ∧ i.Splits ts ∧ i.Stuck ts
  | atLeastReified ts _ r => i.table.DeclaresTerms ts ∧ i.table.declaresBool r.var = true ∧
      i.Splits ts ∧ i.Stuck ts
  | greater ts b => Word.Fits (b + 1) ∧ i.table.DeclaresTerms ts ∧ i.Splits ts ∧ i.Stuck ts
  | equal ts b => i.table.DeclaresTerms ts ∧ (∀ t ∈ ts, Word.Fits (-t.weight)) ∧ Word.Fits (-b) ∧
      i.Splits ts ∧ ¬ i.Splits (ts.map (- ·))
  | different ts b => i.table.DeclaresTerms ts ∧ (∀ t ∈ ts, Word.Fits (-t.weight)) ∧
      Word.Fits (b + 1) ∧ Word.Fits (1 - b) ∧ ¬ (i.Splits ts ∧ i.Splits (ts.map (- ·)))
  | _ => False

section
variable (hi : i.Sound) {ts : List Term} {b : Int}

theorem fits_opposites (h : ∀ t ∈ ts, Word.Fits t.weight) :
    ∀ t ∈ ts.map (- ·), Word.Fits (-t.weight) := by
  intro t ht
  obtain ⟨u, hu, rfl⟩ := List.mem_map.mp ht
  simpa using h u hu

include hi

theorem failsMidway_atLeast_iff : (Build.atLeast ts b).FailsMidway i ↔
    i.table.DeclaresTerms ts ∧ i.Splits ts ∧ i.Stuck ts := by
  unfold Build.atLeast
  rw [failsMidway_require_bind_iff, VariableTable.requireTerms_eq_ok_iff]
  exact and_congr_right fun _ => failsMidway_pushAtLeast_iff hi

theorem failsMidway_atLeastReified_iff {r : Reification} :
    (Build.atLeastReified ts b r).FailsMidway i ↔ i.table.DeclaresTerms ts ∧
      i.table.declaresBool r.var = true ∧ i.Splits ts ∧ i.Stuck ts := by
  unfold Build.atLeastReified
  rw [failsMidway_require_bind_iff, failsMidway_require_bind_iff,
    VariableTable.requireTerms_eq_ok_iff, VariableTable.requireBool_eq_ok_iff]
  exact and_congr_right fun _ => and_congr_right fun _ => failsMidway_pushAtLeast_iff hi

/-- Opposite terms are never in the way of exact sums. -/
theorem not_failsMidway_atLeast_opposite (h : ∀ t ∈ ts, Word.Fits t.weight) :
    ¬ (Build.atLeast (ts.map (- ·)) b).FailsMidway i := by
  rw [failsMidway_atLeast_iff hi]
  exact fun hmid => Instance.not_stuck (fits_opposites h) hmid.2.2

theorem not_failsMidway_atLeastReified_opposite {r : Reification}
    (h : ∀ t ∈ ts, Word.Fits t.weight) :
    ¬ (Build.atLeastReified (ts.map (- ·)) b r).FailsMidway i := by
  rw [failsMidway_atLeastReified_iff hi]
  exact fun hmid => Instance.not_stuck (fits_opposites h) hmid.2.2.2

theorem failsMidway_equal_iff (h : ∀ t ∈ ts, Word.Fits t.weight) :
    (Build.equal ts b).FailsMidway i ↔ i.table.DeclaresTerms ts ∧
      (∀ t ∈ ts, Word.Fits (-t.weight)) ∧ Word.Fits (-b) ∧
      i.Splits ts ∧ ¬ i.Splits (ts.map (- ·)) := by
  unfold Build.equal
  rw [failsMidway_require_bind_iff, failsMidway_negAll_bind_iff, failsMidway_checked_bind_iff,
    VariableTable.requireTerms_eq_ok_iff]
  exact and_congr_right fun hts => and_congr_right fun hfit => and_congr_right fun _ =>
    failsMidway_pushAtLeast_pushAtLeast_iff hi hts hts.neg hfit (fits_opposites h)

theorem failsMidway_different_iff (h : ∀ t ∈ ts, Word.Fits t.weight) :
    (Build.different ts b).FailsMidway i ↔ i.table.DeclaresTerms ts ∧
      (∀ t ∈ ts, Word.Fits (-t.weight)) ∧ Word.Fits (b + 1) ∧ Word.Fits (1 - b) ∧
      ¬ (i.Splits ts ∧ i.Splits (ts.map (- ·))) := by
  unfold Build.different
  rw [failsMidway_require_bind_iff, failsMidway_negAll_bind_iff, failsMidway_checked_bind_iff,
    failsMidway_checked_bind_iff, VariableTable.requireTerms_eq_ok_iff]
  exact and_congr_right fun hts => and_congr_right fun hfit => and_congr_right fun _ =>
    and_congr_right fun _ => failsMidway_either_iff hi hts hts.neg hfit (fits_opposites h)

/-- **A request leaves traces just when it breaks off.** -/
theorem failsMidway_iff (hr : r.Fits) : r.perform.FailsMidway i ↔ r.BreaksOff i := by
  cases r with
  | declareInt d =>
    refine failsMidway_forget_iff.trans (iff_false_intro ?_)
    rintro ⟨k, hk, hne⟩
    exact hne (fails_addInt_iff.mp hk).2
  | declareBool =>
    exact failsMidway_forget_iff.trans
      (iff_false_intro (yields_addBool_iff.mpr ⟨rfl, rfl⟩).not_failsMidway)
  | atLeast ts b => exact failsMidway_forget_iff.trans (failsMidway_atLeast_iff hi)
  | atLeastReified ts b r => exact failsMidway_forget_iff.trans (failsMidway_atLeastReified_iff hi)
  | atMost ts b =>
    refine failsMidway_forget_iff.trans (iff_false_intro ?_)
    unfold Build.atMost
    rw [failsMidway_negAll_bind_iff, failsMidway_checked_bind_iff]
    exact fun h => not_failsMidway_atLeast_opposite hi hr.1 h.2.2
  | atMostReified ts b r =>
    refine failsMidway_forget_iff.trans (iff_false_intro ?_)
    unfold Build.atMostReified
    rw [failsMidway_negAll_bind_iff, failsMidway_checked_bind_iff]
    exact fun h => not_failsMidway_atLeastReified_opposite hi hr.1 h.2.2
  | greater ts b =>
    refine failsMidway_forget_iff.trans ?_
    unfold Build.greater
    rw [failsMidway_checked_bind_iff]
    exact and_congr_right fun _ => failsMidway_atLeast_iff hi
  | less ts b =>
    refine failsMidway_forget_iff.trans (iff_false_intro ?_)
    unfold Build.less
    rw [failsMidway_negAll_bind_iff, failsMidway_checked_bind_iff]
    exact fun h => not_failsMidway_atLeast_opposite hi hr.1 h.2.2
  | equal ts b => exact failsMidway_forget_iff.trans (failsMidway_equal_iff hi hr.1)
  | different ts b => exact failsMidway_forget_iff.trans (failsMidway_different_iff hi hr.1)
  | allDifferent xs =>
    exact failsMidway_forget_iff.trans (iff_false_intro (not_failsMidway_allDifferent hi))
  | link b x =>
    refine failsMidway_forget_iff.trans (iff_false_intro ?_)
    cases b with
    | var b => exact not_failsMidway_require (not_failsMidway_require not_failsMidway_modifyGet)
    | const value => exact not_failsMidway_require not_failsMidway_modifyGet
  | clause lits =>
    exact failsMidway_forget_iff.trans
      (iff_false_intro (not_failsMidway_require not_failsMidway_modifyGet))
  | objectiveTerm t => exact iff_false_intro (not_failsMidway_require not_failsMidway_modifyGet)
  | giveName name => exact iff_false_intro (Yields.not_failsMidway (b := ()) ⟨rfl, rfl⟩)
  | assumeUnbounded => exact iff_false_intro (Yields.not_failsMidway (b := ()) ⟨rfl, rfl⟩)
  | chooseStrategy s => exact iff_false_intro (Yields.not_failsMidway (b := ()) ⟨rfl, rfl⟩)

end

/-- **A failing request leaves the instance as it was, except if it breaks off.** -/
theorem breaksOff_iff (hi : i.Reachable) (hr : r.Fits) :
    (∃ err, r.perform.result i = .error err) ∧ r.perform.after i ≠ i ↔ r.BreaksOff i := by
  rw [← failsMidway_iff hi.sound hr]
  constructor
  · rintro ⟨herr, hne⟩; exact ⟨_, ⟨herr, rfl⟩, hne⟩
  · rintro ⟨k, ⟨herr, rfl⟩, hne⟩; exact ⟨herr, hne⟩

/-- An instance with four large domains, and a disequality whose sums do not fit. -/
def largeInstance : Instance :=
  .uniform .estimates (.interval (.fin 0) (.fin 4611686018427387904)) 4

/-- The disequality `x₁ + x₂ + x₃ + x₄ ≠ 0`. -/
def largeRequest : Request := .different
  [⟨⟨0, false⟩, 1⟩, ⟨⟨1, false⟩, 1⟩, ⟨⟨2, false⟩, 1⟩, ⟨⟨3, false⟩, 1⟩] 0

theorem reachable_largeInstance : largeInstance.Reachable :=
  Instance.reachable_uniform (by decide) 4

theorem fits_largeRequest : largeRequest.Fits := ⟨by decide, by decide⟩

theorem breaksOff_iff_large :
    largeInstance.Reachable ∧ largeRequest.Fits ∧ largeRequest.BreaksOff largeInstance :=
  ⟨reachable_largeInstance, fits_largeRequest,
    (breaksOff_iff reachable_largeInstance fits_largeRequest).mp
      ⟨⟨.domain .overflow, rfl⟩, by decide⟩⟩

/-- The boolean variable of a disequality that cannot be split stays declared. -/
theorem different_leaves_bool : largeInstance.Reachable ∧ largeRequest.Fits ∧
    largeRequest.perform.result largeInstance = .error (.domain .overflow) ∧
    largeRequest.perform.after largeInstance = largeInstance.addBool true ∧
    largeInstance.addBool true ≠ largeInstance :=
  ⟨reachable_largeInstance, fits_largeRequest, rfl, rfl, by decide⟩

end Request

end ThresholdEncoding
