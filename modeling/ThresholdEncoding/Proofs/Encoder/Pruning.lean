import ThresholdEncoding.Proofs.Encoder.Consequence
import ThresholdEncoding.Proofs.Encoder.Visited
import ThresholdEncoding.Proofs.VariableTable

/-!
# Pruning only drops clauses

With pruning the walk over the values of a leading variable starts later. It still visits a final
part of the values that are visited from the first one on, or, if the start lies behind all of them,
none at all: the start never contributes more than a number of the range, so nothing can overflow
that has not overflown before. This holds however large the numbers are.

* `Encoder.pruning`: the encoder with or without pruning.
* `exists_pruned_start`: the position of the first value exists and is not too late.
* `Walks.of_start`: from there on, the walk visits a final part of the values.
* `encodeOver_pruning`: fewer clauses, in the same order, and no further failures.
-/

namespace ThresholdEncoding.Encoder

open Domain

/-- The encoder with or without pruning. -/
def pruning (e : Encoder) (p : Bool) : Encoder := { e with options := { e.options with prune := p } }

variable {e : Encoder} {overrides : Overrides} {t : Term} {d : Domain}
variable {restLower restUpper : Extended} {bound : Int} {b : BoundedTerm}
variable {bs rest : List BoundedTerm} {us : List Int} {full : List Clause} {k n s : Nat}
variable {g : Nat → Int} {c : LinearConstraint}

/-! ### The first value -/

/-- The value at a position, if there is one, contributes at most some number of the range. -/
def Moderate (t : Term) (d : Domain) (s : Nat) : Prop :=
  ∀ u, d.at? t.direction s = some u → ∃ m, Word.Fits m ∧ t.weight * u ≤ m

/-- **Pruning finds a start**, whatever the bounds are. -/
theorem exists_pruned_start (hd : d.Valid) (hw : t.weight ≠ 0) (restUpper : Extended) (bound : Int)
    {p : Bool} (hp : p = true → d.isOpen = false) :
    ∃ s, startPosition d t restUpper bound p = .ok s ∧
      (s = 0 ∨ d.isOpen = false ∧ Moderate t d s) := by
  rcases startPosition_cases d t restUpper bound p with h0 | ⟨hpr, hi, -, hfits, heq⟩
  · exact ⟨0, h0, Or.inl rfl⟩
  · obtain ⟨n, g, hg⟩ := hd.exists_enumeration (hp hpr)
    obtain ⟨s, hs, hspec⟩ := firstPosition_spec (bound - hi) hg hw
    refine ⟨s, heq.trans hs, hspec.imp_right fun ⟨_, hspec⟩ => ⟨hp hpr, fun u hu => ?_⟩⟩
    rcases hspec u hu with hlt | ⟨-, hle⟩
    · exact ⟨_, hfits, hlt.le⟩
    · exact ⟨0, Word.fits_zero, hle⟩

/-! ### The walk from there -/

/-- A greater contribution settles the constraint as well. -/
theorem settles_of_le {c c' : Int} (hle : c ≤ c') (h : settles restLower bound c = true) :
    settles restLower bound c' = true := by
  unfold settles at *
  rw [decide_eq_true_eq] at *
  cases restLower with
  | negInf => exact h
  | posInf => exact h
  | fin m => exact Extended.le_trans h (Extended.saturate_le_saturate (by omega))

/-- Behind a position without a value there are no values. -/
theorem at?_eq_none_of_le (h : d.Enumeration n g) {dir : Direction} {j : Nat} (hkj : k ≤ j)
    (hk : d.at? dir k = none) : d.at? dir j = none := by
  rw [Option.eq_none_iff_forall_ne_some] at hk ⊢
  intro u hu
  cases dir with
  | ascending =>
    obtain ⟨h1, h2, -⟩ := h.ascending_iff.mp hu
    exact hk _ (h.ascending_iff.mpr ⟨by omega, by omega, rfl⟩)
  | descending =>
    obtain ⟨h1, h2, -⟩ := h.descending_iff.mp hu
    exact hk _ (h.descending_iff.mpr ⟨by omega, by omega, rfl⟩)

/-- The value at a later position contributes at least as much. -/
theorem mul_le_mul_of_at? (h : d.Enumeration n g) (hw : t.weight ≠ 0) {j : Nat} {u v : Int}
    (hkj : k ≤ j) (hu : d.at? t.direction k = some u) (hv : d.at? t.direction j = some v) :
    t.weight * u ≤ t.weight * v := by
  obtain ⟨w, hseq⟩ := h.sequence t.direction
  obtain ⟨-, rfl, -⟩ := hseq.of_at hu
  obtain ⟨hj, rfl, -⟩ := hseq.of_at hv
  rcases hseq.eq_or_precedes hkj hj with heq | hlt
  · rw [heq]
  · exact (mul_lt_mul_of_precedes hw hlt).le

/-- Behind the end of a walk there is nothing to visit: a value there settles the constraint, as the
one at the end does. -/
theorem Walks.of_end (h : Walks t d restLower bound k []) (hd : d.Enumeration n g)
    (hw : t.weight ≠ 0) (hks : k ≤ s) (hs : Moderate t d s) : Walks t d restLower bound s [] := by
  cases h with
  | ended hat => exact .ended (at?_eq_none_of_le hd hks hat)
  | @settled _ v hat hfits hset =>
    cases hat' : d.at? t.direction s with
    | none => exact .ended hat'
    | some u =>
      have hle := mul_le_mul_of_at? hd hw hks hat hat'
      obtain ⟨m, hm, hum⟩ := hs u hat'
      exact .settled hat' (Word.fits_of_between hfits hm hle hum) (settles_of_le hle hset)

/-- **From a later start on, the walk visits a final part of the values.** -/
theorem Walks.of_start (h : Walks t d restLower bound 0 us) (hd : d.Valid) (hw : t.weight ≠ 0)
    (hs : s = 0 ∨ d.isOpen = false ∧ Moderate t d s) :
    Walks t d restLower bound s (us.drop s) := by
  rcases hs with rfl | ⟨ho, hs⟩
  · exact h
  obtain ⟨n, g, hg⟩ := hd.exists_enumeration ho
  rcases le_total s us.length with hle | hle
  · simpa using h.drop hle
  · have hend := h.drop (le_refl us.length)
    rw [List.drop_length, Nat.zero_add] at hend
    rw [List.drop_eq_nil_of_le hle]
    exact hend.of_end hg hw hle hs

/-- With pruning, values are visited over the same domain from a start that is not too late. -/
theorem visit_pruning (hd : ∀ o, e.visitedDomain overrides t.var = .ok o → o.Valid)
    (hw : t.weight ≠ 0) {w : Visit}
    (h : (e.pruning false).visit overrides t restLower restUpper bound = .ok w) :
    w.start = 0 ∧ w.domain.Valid ∧ ∃ w',
      (e.pruning true).visit overrides t restLower restUpper bound = .ok w' ∧
      w'.domain = w.domain ∧
      (w'.start = 0 ∨ w.domain.isOpen = false ∧ Moderate t w.domain w'.start) := by
  have hvisited : ∀ p, (e.pruning p).visitedDomain overrides t.var =
      e.visitedDomain overrides t.var := fun _ => rfl
  unfold visit at *
  rw [hvisited] at *
  obtain ⟨o, ho, h⟩ := Except.bind_eq_ok_iff.mp h
  have hfull : startPosition o t restUpper bound ((e.pruning false).options.prune && !o.isOpen) =
      .ok 0 := (startPosition_cases o t restUpper bound _).resolve_right (by simp [pruning])
  obtain ⟨s, hs, hstart⟩ := exists_pruned_start (hd o ho) hw restUpper bound
    (show ((e.pruning true).options.prune && !o.isOpen) = true → o.isOpen = false by simp)
  simp only [hfull, Except.mapError_ok, Except.ok_bind] at h
  simp only [ho, hs, Except.mapError_ok, Except.ok_bind]
  split_ifs at h ⊢
  cases h
  exact ⟨rfl, hd o ho, _, rfl, rfl, hstart⟩

/-! ### The clauses -/

/-- Fewer clauses for the last elements of a list are fewer clauses for the list. -/
theorem exists_mapM_drop {f f' : Int → Except EncodeError (List Clause)}
    (hf : ∀ u ∈ us, ∀ l, f u = .ok l → ∃ l', f' u = .ok l' ∧ l'.Sublist l)
    {css : List (List Clause)} (h : us.mapM f = .ok css) (j : Nat) :
    ∃ css', (us.drop j).mapM f' = .ok css' ∧ css'.flatten.Sublist css.flatten := by
  induction us generalizing css j with
  | nil => exact ⟨[], by rw [List.drop_nil]; rfl, List.nil_sublist _⟩
  | cons u us ih =>
    obtain ⟨hu, hus⟩ := List.forall_mem_cons.mp hf
    rw [List.mapM_cons] at h
    obtain ⟨here, h1, h⟩ := Except.bind_eq_ok_iff.mp h
    obtain ⟨further, h2, h⟩ := Except.bind_eq_ok_iff.mp h
    cases h
    cases j with
    | zero =>
      obtain ⟨here', h3, hsub⟩ := hu here h1
      obtain ⟨further', h4, hsub'⟩ := ih hus h2 0
      rw [List.drop_zero] at h4
      refine ⟨here' :: further', ?_, hsub.append hsub'⟩
      rw [List.drop_zero, List.mapM_cons, h3, h4]
      rfl
    | succ j =>
      obtain ⟨css', h3, hsub⟩ := ih hus h2 j
      exact ⟨css', h3, hsub.trans (List.sublist_append_right here further.flatten)⟩

/-- **For a sum, pruning only drops clauses.** -/
theorem sumClauses_pruning (hbs : ∀ b ∈ bs, b.term.weight ≠ 0 ∧
      ∀ o, e.visitedDomain overrides b.term.var = .ok o → o.Valid)
    (h : ((e.pruning false).sumClauses overrides bs bound).value = .ok full) :
    ∃ part, ((e.pruning true).sumClauses overrides bs bound).value = .ok part ∧
      part.Sublist full := by
  induction bs generalizing bound full with
  | nil =>
    rw [value_sumClauses_nil] at h ⊢
    exact ⟨full, h, List.Sublist.refl full⟩
  | cons b bs ih =>
    obtain ⟨⟨hw, hd⟩, hrest⟩ := List.forall_mem_cons.mp hbs
    cases bs with
    | nil =>
      rw [value_sumClauses_single] at h ⊢
      exact ⟨full, h, List.Sublist.refl full⟩
    | cons next rest =>
      obtain ⟨us, css, ⟨w, hvisit, hus⟩, hcss, rfl⟩ := sumClauses_eq_ok_iff.mp h
      obtain ⟨h0, hvalid, w', hvisit', hdom, hstart⟩ := visit_pruning hd hw hvisit
      rw [h0] at hus
      have hus' := hus.of_start hvalid hw hstart
      rw [← hdom] at hus'
      have hvalue : ∀ u ∈ us, ∀ l, ((e.pruning false).valueClauses overrides b.term (next :: rest)
          bound u (b.term.weight * u)).value = .ok l → ∃ l', ((e.pruning true).valueClauses
            overrides b.term (next :: rest) bound u (b.term.weight * u)).value = .ok l' ∧
          l'.Sublist l := by
        intro u _ l hl
        obtain ⟨lit, ds, h1, hfits, h2, rfl⟩ := valueClauses_eq_ok_iff.mp hl
        obtain ⟨ds', h3, hsub⟩ := ih hrest h2
        exact ⟨_, valueClauses_eq_ok_iff.mpr ⟨lit, ds', h1, hfits, h3, rfl⟩, hsub.map _⟩
      obtain ⟨css', hcss', hsub⟩ := exists_mapM_drop hvalue hcss w'.start
      exact ⟨_, sumClauses_eq_ok_iff.mpr ⟨_, css', ⟨w', hvisit', hus'⟩, hcss', rfl⟩, hsub⟩

/-- Values are visited over a domain of the table or one of those given instead. -/
theorem valid_of_visitedDomain (htable : e.table.Valid)
    (hoverrides : ∀ x o, overrides x = some o → o.Valid) {x : IntVar} {o : Domain}
    (ho : e.visitedDomain overrides x = .ok o) : o.Valid := by
  unfold visitedDomain domain at ho
  split at ho
  · next o' ho' =>
    cases ho
    exact hoverrides x o ho'
  · split at ho
    · next d hd =>
      cases ho
      exact htable x o hd
    · cases ho

/-- **Pruning only drops clauses and adds no failure**, however large the numbers are: the encoding
with pruning has some of the clauses of the one without it, in the same order, and the same
constraints are reported. -/
theorem encodeOver_pruning (e : Encoder) (overrides : Overrides) (c : LinearConstraint)
    (htable : e.table.Valid) (hoverrides : ∀ x o, overrides x = some o → o.Valid)
    (hweights : ∀ t ∈ c.terms, t.weight ≠ 0) :
    (∀ full, ((e.pruning false).encodeOver overrides c).value = .ok (.clauses full) →
      ∃ part, ((e.pruning true).encodeOver overrides c).value = .ok (.clauses part) ∧
        part.Sublist full) ∧
    (((e.pruning true).encodeOver overrides c).value = .ok .infeasible ↔
      ((e.pruning false).encodeOver overrides c).value = .ok .infeasible) := by
  refine ⟨fun full hfull => ?_, ?_⟩
  · obtain ⟨bs, ds, hbs, hinf, hds, rfl⟩ := encodeOver_eq_clauses_iff.mp hfull
    obtain ⟨hterms, -⟩ := bounded_of_mapM hbs
    have hterm : ∀ b ∈ bs, b.term.weight ≠ 0 ∧
        ∀ o, e.visitedDomain overrides b.term.var = .ok o → o.Valid := by
      intro b hb
      refine ⟨hweights b.term ?_, fun o => valid_of_visitedDomain htable hoverrides⟩
      rw [← hterms]
      exact List.mem_map_of_mem hb
    obtain ⟨part, hpart, hsub⟩ := sumClauses_pruning hterm hds
    exact ⟨_, encodeOver_eq_clauses_iff.mpr ⟨bs, part, hbs, hinf, hpart, rfl⟩, hsub.map _⟩
  · rw [encodeOver_eq_infeasible_iff, encodeOver_eq_infeasible_iff]
    rfl

/-- Two variables over small intervals. -/
def smallEncoder : Encoder where
  table := { ints := [⟨.interval (.fin 0) (.fin 5), false⟩, ⟨.interval (.fin 0) (.fin 2), false⟩] }

/-- The constraint `-x₁ + x₂ ≥ -1`. -/
def smallConstraint : LinearConstraint where
  terms := [⟨⟨0, false⟩, -1⟩, ⟨⟨1, false⟩, 1⟩]
  bound := -1

/-- The clauses for the values `4`, `3` and `2` of the first variable. -/
def smallClauses : List Clause :=
  [[.atLeast ⟨0, false⟩ 4 true false, .const false],
    [.atLeast ⟨0, false⟩ 3 true false, .atLeast ⟨1, false⟩ 2 false false],
    [.atLeast ⟨0, false⟩ 2 true false, .atLeast ⟨1, false⟩ 1 false false]]

/-- The clause for the value `5` is implied by the one for `4`, and pruning drops it. -/
theorem encodeOver_pruning_small :
    ((smallEncoder.pruning false).encodeOver (fun _ => none) smallConstraint).value =
      .ok (.clauses ([.atLeast ⟨0, false⟩ 5 true false, .const false] :: smallClauses)) ∧
    ((smallEncoder.pruning true).encodeOver (fun _ => none) smallConstraint).value =
      .ok (.clauses smallClauses) ∧
    smallClauses.Sublist ([.atLeast ⟨0, false⟩ 5 true false, .const false] :: smallClauses) := by
  have hfull : ((smallEncoder.pruning false).encodeOver (fun _ => none) smallConstraint).value =
      .ok (.clauses ([.atLeast ⟨0, false⟩ 5 true false, .const false] :: smallClauses)) := by decide +kernel
  have hpruned : ((smallEncoder.pruning true).encodeOver (fun _ => none) smallConstraint).value =
      .ok (.clauses smallClauses) := by decide +kernel
  obtain ⟨hclauses, -⟩ := encodeOver_pruning smallEncoder (fun _ => none) smallConstraint
    (VariableTable.valid_of_forall (by decide)) (by simp) (by decide)
  obtain ⟨part, hpart, hsub⟩ := hclauses _ hfull
  rw [hpruned] at hpart
  cases hpart
  exact ⟨hfull, hpruned, hsub⟩

end ThresholdEncoding.Encoder
