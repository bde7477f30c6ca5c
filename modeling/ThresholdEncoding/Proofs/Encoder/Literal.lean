import ThresholdEncoding.Encoder.Basic
import ThresholdEncoding.Proofs.Domain.Searchable
import ThresholdEncoding.Proofs.Valuation

/-!
# The literals of the encoder

A threshold literal is true just when the variable reaches the threshold, however it is rounded or
replaced by a constant. From this follow the meanings of the literal of a constraint on one variable
and of the literal that excuses a leading variable from a value.

* `Encoder.Roundable`, `Encoder.Regular`: what literals and clauses require of the domain of a
  variable.
* `evaluate_thresholdLiteral`, `evaluate_lastLiteral`, `evaluate_leadingLiteral`: the meanings.
-/

namespace ThresholdEncoding.Encoder

open Domain

/-- The domain `d` of the variable `x` is one over which thresholds can be rounded. -/
structure Roundable (e : Encoder) (x : IntVar) (d : Domain) : Prop where
  domain_eq : e.table.domain? x = some d
  valid : d.Valid
  simple : d.isOpen = false ∨ d.isInterval = true

/-- The domain `d` of the variable `x` allows to encode constraints on `x`: it is closed or an
interval, and values are visited in it or in a closed part of it. -/
structure Regular (e : Encoder) (overrides : Overrides) (x : IntVar) (d : Domain) : Prop where
  domain_eq : e.table.domain? x = some d
  valid : d.Valid
  simple : d.isOpen = false ∨ d.isInterval = true
  override : ∀ o, overrides x = some o → o.Valid ∧ o.isOpen = false ∧ ∀ v ∈ o, v ∈ d

variable {e : Encoder} {overrides : Overrides} {x : IntVar} {d : Domain} {a : Assignment}
variable {negated keep : Bool} {threshold bound u v : Int} {l : Literal} {t : Term}

theorem Regular.roundable (h : e.Regular overrides x d) : e.Roundable x d :=
  ⟨h.domain_eq, h.valid, h.simple⟩

/-! ### Threshold literals -/

theorem domain_eq_ok (h : e.table.domain? x = some d) : e.domain x = .ok d := by
  unfold Encoder.domain; rw [h]

/-- **Rounded literals mean what was asked for.** -/
theorem evaluate_literalOver (hd : d.Valid) (hs : d.isOpen = false ∨ d.isInterval = true)
    (ha : a.int? x = some u) (hu : d.Admits u)
    (h : literalOver keep d negated x threshold = .ok l) :
    l.evaluate a = some (decide (threshold ≤ u) != negated) := by
  obtain ⟨h1, h2⟩ := hd.between hu.1
  unfold literalOver at h
  by_cases hlow : .fin threshold ≤ d.lower
  · rw [if_pos hlow] at h
    cases h
    have hle : threshold ≤ u := Extended.fin_le_fin.mp (Extended.le_trans hlow h1)
    simp [Literal.evaluate, hle]
  rw [if_neg hlow] at h
  by_cases hup : d.upper < .fin threshold
  · rw [if_pos hup] at h
    cases h
    have hlt : u < threshold := Extended.fin_lt_fin.mp (Extended.lt_of_le_of_lt h2 hup)
    simp [Literal.evaluate, not_le.mpr hlt]
  rw [if_neg hup] at h
  cases hw : d.roundUp threshold with
  | error err => rw [hw] at h; cases h
  | ok w =>
    have hle := (hd.roundsTo_of_roundUp hs hw).le_iff hu.1 hu.2
    rw [hw] at h
    cases keep <;> cases h <;> simp [Literal.evaluate, ha, hle]

section Roundable
variable (hx : e.Roundable x d) (ha : a.int? x = some u) (hu : d.Admits u)
include hx ha hu

/-- **Threshold literals mean what was asked for.** -/
theorem evaluate_thresholdLiteral (h : e.thresholdLiteral negated x threshold = .ok l) :
    l.evaluate a = some (decide (threshold ≤ u) != negated) := by
  unfold thresholdLiteral at h
  rw [domain_eq_ok hx.domain_eq] at h
  split_ifs at h
  · replace h : (literalOver e.options.keepThresholds d negated x threshold).mapError
      EncodeError.domain = .ok l := h
    cases hl : literalOver e.options.keepThresholds d negated x threshold with
    | error err => rw [hl] at h; cases h
    | ok l' =>
      rw [hl] at h
      cases h
      exact evaluate_literalOver hx.valid hx.simple ha hu hl
  · cases h
    simp [Literal.evaluate, ha]

/-- A variable that is not above the threshold of `le_fdiv_iff` is below a number, if that number
can be written; if it cannot, no variable is above the threshold. -/
theorem evaluate_lastLiteral (hb : Word.Fits bound) (htx : t.var = x) (hw : t.weight ≠ 0)
    (h : e.lastLiteral t bound = .ok l) :
    l.evaluate a = some true ↔ bound ≤ t.weight * u := by
  subst htx
  unfold lastLiteral at h
  by_cases hpos : 0 < t.weight
  · rw [if_pos hpos] at h
    rw [evaluate_thresholdLiteral hx ha hu h]
    simp [Word.ceilDiv_le_iff hpos]
  · have hneg : t.weight < 0 := by omega
    rw [if_neg hpos, Word.floorDiv?_eq_check? hw] at h
    rw [← Word.le_fdiv_iff hneg]
    split at h
    · next threshold hq =>
      obtain ⟨q, hq, hq'⟩ := Option.bind_eq_some_iff.mp hq
      obtain ⟨rfl, -⟩ := Word.check?_eq_some_iff.mp hq
      obtain ⟨rfl, -⟩ := Word.check?_eq_some_iff.mp hq'
      rw [evaluate_thresholdLiteral hx ha hu h]
      simp only [Bool.bne_true, Option.some.injEq, Bool.not_eq_true', decide_eq_false_iff_not]
      omega
    · next hq =>
      cases h
      have hle := Word.natAbs_fdiv_le (a := bound) hneg
      have hfits := hu.2
      have hbig : ¬ (Word.Fits (bound.fdiv t.weight) ∧ Word.Fits (bound.fdiv t.weight + 1)) := by
        rintro ⟨h1, h2⟩
        rw [Word.check?_of_fits h1, Option.bind_some, Word.check?_of_fits h2] at hq
        cases hq
      simp only [Literal.evaluate, true_iff]
      rw [Word.fits_iff] at *
      rw [Word.fits_iff] at hbig
      omega

/-- The literal that excuses a variable from a value says that the variable lies beyond it. -/
theorem evaluate_leadingLiteral (hv : Word.Fits v) (htx : t.var = x)
    (h : e.leadingLiteral t v = .ok l) :
    l.evaluate a = some true ↔ t.direction.Precedes v u := by
  subst htx
  unfold leadingLiteral at h
  cases hdir : t.direction with
  | ascending =>
    simp only [hdir] at h
    split at h
    · next above habove =>
      obtain ⟨rfl, -⟩ := Word.check?_eq_some_iff.mp habove
      rw [evaluate_thresholdLiteral hx ha hu h]
      simp only [Bool.bne_false, Option.some.injEq, decide_eq_true_eq, Direction.Precedes]
      omega
    · next habove =>
      cases h
      have hbig := Word.check?_eq_none_iff.mp habove
      have hfits := hu.2
      simp only [Literal.evaluate, Direction.Precedes]
      rw [Word.fits_iff] at *
      simp only [Option.some.injEq, Bool.false_eq_true, false_iff, not_lt]
      omega
  | descending =>
    simp only [hdir] at h
    rw [evaluate_thresholdLiteral hx ha hu h]
    simp [Direction.Precedes]

end Roundable

/-! ### Literals over closed domains -/

theorem exists_literalOver (hd : d.Searchable) (hc : d.isOpen = false) :
    ∃ l, literalOver keep d negated x threshold = .ok l := by
  unfold literalOver
  by_cases hlow : .fin threshold ≤ d.lower
  · exact ⟨_, if_pos hlow⟩
  rw [if_neg hlow]
  by_cases hup : d.upper < .fin threshold
  · exact ⟨_, if_pos hup⟩
  rw [if_neg hup]
  obtain ⟨s, hs, hround⟩ := hd.exists_roundUp (Extended.not_lt.mp hup)
  obtain ⟨n, g, hg⟩ := hd.exists_enumeration hc
  obtain ⟨k, hk, rfl⟩ := hg.mem_iff.mp hs.1.1
  rw [checked_of_fits (hg.fits hk)] at hround
  rw [hround]
  exact ⟨_, rfl⟩

section Regular
variable (hx : e.Regular overrides x d) (hr : d.radius < 4611686018427387904)
variable (ho : d.isOpen = false)
include hx hr ho

theorem exists_thresholdLiteral : ∃ l, e.thresholdLiteral negated x threshold = .ok l := by
  unfold thresholdLiteral
  rw [domain_eq_ok hx.domain_eq]
  split_ifs
  · obtain ⟨l, hl⟩ : ∃ l, literalOver e.options.keepThresholds d negated x threshold = .ok l :=
      exists_literalOver (hx.valid.searchable_of_radius ho hr) ho
    refine ⟨l, ?_⟩
    show (literalOver e.options.keepThresholds d negated x threshold).mapError
      EncodeError.domain = .ok l
    rw [hl]; rfl
  · exact ⟨_, rfl⟩

theorem exists_lastLiteral (htx : t.var = x) :
    ∃ l, e.lastLiteral t bound = .ok l := by
  subst htx
  unfold lastLiteral
  split_ifs
  · exact exists_thresholdLiteral hx hr ho
  · split
    · exact exists_thresholdLiteral hx hr ho
    · exact ⟨_, rfl⟩

theorem exists_leadingLiteral (htx : t.var = x) :
    ∃ l, e.leadingLiteral t v = .ok l := by
  subst htx
  unfold leadingLiteral
  split
  · split
    · exact exists_thresholdLiteral hx hr ho
    · exact ⟨_, rfl⟩
  · exact exists_thresholdLiteral hx hr ho

end Regular

end ThresholdEncoding.Encoder
