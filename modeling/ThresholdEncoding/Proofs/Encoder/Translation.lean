import ThresholdEncoding.Proofs.Domain.Reach
import ThresholdEncoding.Proofs.Domain.Searchable
import ThresholdEncoding.Proofs.Encoder.Literal
import ThresholdEncoding.Proofs.VariableTable

/-!
# Which literal stands for a threshold

A threshold splits the values of a domain into those that reach it and those that do not. Its literal
tells the two apart, and it is *canonical*: thresholds that split the values in the same way have one
literal, up to what it notes about the threshold that was asked for. If all values or no values reach
the threshold, the literal is constant; otherwise it is the literal of the least value that does.

Where there are too many values or too few numbers, there can be a threshold that values reach but
rounding does not, and then there is no literal. And where rounding has nothing to start from, asking
for a literal panics.

* `Literal.atValue`: the literal without such notes.
* `ThresholdLaws`, `thresholdLaws`: the literals of a variable whose domain can be searched.
* `thresholdLiteral_eq_error_iff`: the exact condition under which there is no literal.
-/

namespace ThresholdEncoding

/-- The literal for the value that the threshold rounds up to, without a note of the threshold that
was asked for. -/
def Literal.atValue : Literal → Literal
  | .atLeast x v negated _ => .atLeast x v negated false
  | .raw x _ negated (some v) => .raw x v negated (some v)
  | l => l

namespace Encoder

open Domain

variable {e : Encoder} {x : IntVar} {d : Domain} {a : Assignment} {keep negated : Bool}
variable {t t' u : Int} {l l' : Literal} {err : EncodeError}

/-! ### Canonical literals -/

/-- What the literal `l` for a threshold `t` over the domain `d` is. -/
structure LiteralLaws (keep : Bool) (d : Domain) (negated : Bool) (x : IntVar) (t : Int)
    (l : Literal) : Prop where
  /-- It means what was asked for. -/
  evaluate_eq : ∀ {a u}, a.int? x = some u → u ∈ d →
    l.evaluate a = some (decide (t ≤ u) != negated)
  /-- It is constant for the thresholds that all values or no values reach. -/
  const_iff : (∃ b, l = .const b) ↔ .fin t ≤ d.lower ∨ d.upper < .fin t
  /-- Otherwise it is about the least value that reaches the threshold. -/
  exists_value : (∀ b, l ≠ .const b) → ∃ s, IsLeast {u | u ∈ d ∧ t ≤ u} s ∧
    d.lower < .fin s ∧ .fin s ≤ d.upper ∧
    if keep then l = .raw x t negated (some s)
    else ∃ rounded, l = .atLeast x s negated rounded ∧ (rounded = true ↔ t ∉ d)

/-- The literals for the thresholds of the variable `x` over the domain `d`. -/
structure ThresholdLaws (e : Encoder) (x : IntVar) (d : Domain) : Prop where
  /-- Literals are exact. -/
  laws : ∀ {negated t l}, e.thresholdLiteral negated x t = .ok l →
    LiteralLaws e.options.keepThresholds d negated x t l
  /-- Over a closed domain each threshold has one. -/
  total : d.isOpen = false → ∀ negated t, ∃ l, e.thresholdLiteral negated x t = .ok l
  /-- Two of them agree just when the same values reach the thresholds. -/
  canonical : ∀ {negated t t' l l'}, e.thresholdLiteral negated x t = .ok l →
    e.thresholdLiteral negated x t' = .ok l' →
    ({u | u ∈ d ∧ t ≤ u} = {u | u ∈ d ∧ t' ≤ u} ↔ l.atValue = l'.atValue)

section Searchable
variable (hd : d.Searchable)
include hd

/-- **The three kinds of literals.** -/
theorem literalOver_cases (h : literalOver keep d negated x t = .ok l) :
    .fin t ≤ d.lower ∧ l = .const !negated ∨ d.upper < .fin t ∧ l = .const negated ∨
      ∃ s, ¬ .fin t ≤ d.lower ∧ .fin t ≤ d.upper ∧ IsLeast {u | u ∈ d ∧ t ≤ u} s ∧
        l = if keep then .raw x t negated (some s) else .atLeast x s negated (s != t) := by
  unfold literalOver at h
  by_cases hlow : .fin t ≤ d.lower
  · rw [if_pos hlow] at h
    exact Or.inl ⟨hlow, (Except.ok.inj h).symm⟩
  rw [if_neg hlow] at h
  by_cases hup : d.upper < .fin t
  · rw [if_pos hup] at h
    exact Or.inr (Or.inl ⟨hup, (Except.ok.inj h).symm⟩)
  rw [if_neg hup, Except.bind_eq_ok_iff] at h
  obtain ⟨s, hs, hl⟩ := h
  obtain ⟨w, hw, hround⟩ := hd.exists_roundUp (Extended.not_lt.mp hup)
  obtain rfl := eq_of_checked (hround.symm.trans hs)
  exact Or.inr (Or.inr ⟨_, hlow, Extended.not_lt.mp hup, hw, (Except.ok.inj hl).symm⟩)

/-- Literals mean what was asked for, with and without their notes. -/
theorem evaluate_of_searchable (ha : a.int? x = some u) (hu : u ∈ d)
    (h : literalOver keep d negated x t = .ok l) :
    l.evaluate a = some (decide (t ≤ u) != negated) ∧
      l.atValue.evaluate a = some (decide (t ≤ u) != negated) := by
  rcases literalOver_cases hd h with ⟨hlow, rfl⟩ | ⟨hup, rfl⟩ | ⟨s, -, -, hs, rfl⟩
  · have hle := hd.le_lower_iff.mp hlow u hu
    simp [Literal.evaluate, Literal.atValue, hle]
  · have hlt := hd.upper_lt_iff.mp hup u hu
    simp [Literal.evaluate, Literal.atValue, not_le.mpr hlt]
  · have hle := le_iff_of_isLeast hs hu
    cases keep <;> simp [Literal.evaluate, Literal.atValue, ha, hle]

/-- **Rounded literals are exact.** -/
theorem literalLaws (h : literalOver keep d negated x t = .ok l) :
    LiteralLaws keep d negated x t l where
  evaluate_eq ha hu := (evaluate_of_searchable hd ha hu h).1
  const_iff := by
    rcases literalOver_cases hd h with ⟨hlow, rfl⟩ | ⟨hup, rfl⟩ | ⟨s, hlow, hup, -, rfl⟩
    · exact iff_of_true ⟨_, rfl⟩ (Or.inl hlow)
    · exact iff_of_true ⟨_, rfl⟩ (Or.inr hup)
    · refine iff_of_false ?_ (not_or.mpr ⟨hlow, Extended.not_lt.mpr hup⟩)
      cases keep <;> simp
  exists_value hconst := by
    rcases literalOver_cases hd h with ⟨-, rfl⟩ | ⟨-, rfl⟩ | ⟨s, hlow, -, hs, rfl⟩
    · exact absurd rfl (hconst _)
    · exact absurd rfl (hconst _)
    · obtain ⟨h1, h2⟩ := hd.bounds_of_isLeast hlow hs
      refine ⟨s, hs, h1, h2, ?_⟩
      cases keep with
      | true => rfl
      | false => exact ⟨_, rfl, bne_iff_ne.trans (ne_iff_of_isLeast hs)⟩

/-- **Thresholds that the same values reach** have one literal. -/
theorem atValue_eq_of_iff (hiff : ∀ u ∈ d, (t ≤ u ↔ t' ≤ u))
    (h : literalOver keep d negated x t = .ok l) (h' : literalOver keep d negated x t' = .ok l') :
    l.atValue = l'.atValue := by
  have hlow : .fin t ≤ d.lower ↔ .fin t' ≤ d.lower := by
    rw [hd.le_lower_iff, hd.le_lower_iff]
    exact forall₂_congr hiff
  have hup : d.upper < .fin t ↔ d.upper < .fin t' := by
    rw [hd.upper_lt_iff, hd.upper_lt_iff]
    exact forall₂_congr fun u hu => by rw [← not_le, ← not_le, hiff u hu]
  have hset : {u | u ∈ d ∧ t ≤ u} = {u | u ∈ d ∧ t' ≤ u} :=
    Set.ext fun u => and_congr_right (hiff u)
  rcases literalOver_cases hd h with ⟨h1, rfl⟩ | ⟨h1, rfl⟩ | ⟨s, h1, h2, hs, rfl⟩
  · rw [literalOver, if_pos (hlow.mp h1)] at h'
    rw [← Except.ok.inj h']
  · have hnot : ¬ .fin t' ≤ d.lower := fun hle => by
      obtain ⟨u, hu⟩ := hd.exists_mem
      have := hd.upper_lt_iff.mp h1 u hu
      have := (hiff u hu).mpr (hd.le_lower_iff.mp hle u hu)
      omega
    rw [literalOver, if_neg hnot, if_pos (hup.mp h1)] at h'
    rw [← Except.ok.inj h']
  · rcases literalOver_cases hd h' with ⟨h1', -⟩ | ⟨h1', -⟩ | ⟨s', -, -, hs', rfl⟩
    · exact absurd (hlow.mpr h1') h1
    · exact absurd h2 (hup.mpr h1')
    · rw [hset] at hs
      obtain rfl := hs.unique hs'
      cases keep <;> rfl

/-- **Thresholds that split the values differently** have different literals. -/
theorem atValue_eq_iff (h : literalOver keep d negated x t = .ok l)
    (h' : literalOver keep d negated x t' = .ok l') :
    {u | u ∈ d ∧ t ≤ u} = {u | u ∈ d ∧ t' ≤ u} ↔ l.atValue = l'.atValue := by
  constructor
  · intro hset
    refine atValue_eq_of_iff hd (fun u hu => ?_) h h'
    have hmem : u ∈ {u | u ∈ d ∧ t ≤ u} ↔ u ∈ {u | u ∈ d ∧ t' ≤ u} := by rw [hset]
    exact (and_congr_right_iff.mp hmem) hu
  · intro heq
    ext u
    refine and_congr_right fun hu => ?_
    -- an assignment of the value tells the literals apart
    have hat : (Assignment.ofLists [(x, u)] []).int? x = some u := by simp [Assignment.ofLists]
    have h1 := (evaluate_of_searchable hd hat hu h).2
    have h2 := (evaluate_of_searchable hd hat hu h').2
    rw [heq, h2, Option.some.injEq] at h1
    simpa using h1.symm

end Searchable

/-! ### The literals of an encoder -/

/-- With rounding, the literal of a declared variable is the one over its domain. -/
theorem thresholdLiteral_of_domain (hr : e.options.roundThresholds = true)
    (hx : e.table.domain? x = some d) : e.thresholdLiteral negated x t =
      (literalOver e.options.keepThresholds d negated x t).mapError .domain := by
  unfold thresholdLiteral
  rw [if_pos hr, domain_eq_ok hx, Except.ok_bind]

/-- **The literals of a variable whose domain can be searched** are exact and canonical, and over a
closed domain there always is one. -/
theorem thresholdLaws (hr : e.options.roundThresholds = true) (hx : e.table.domain? x = some d)
    (hd : d.Searchable) : e.ThresholdLaws x d where
  laws h := by
    rw [thresholdLiteral_of_domain hr hx, Except.mapError_eq_ok_iff] at h
    exact literalLaws hd h
  total hc negated t := by
    obtain ⟨l, hl⟩ := exists_literalOver hd hc
    exact ⟨l, by rw [thresholdLiteral_of_domain hr hx, hl, Except.mapError_ok]⟩
  canonical h h' := by
    rw [thresholdLiteral_of_domain hr hx, Except.mapError_eq_ok_iff] at h h'
    exact atValue_eq_iff hd h h'

/-- An encoder with one variable, over the multiples of `3` from `-3` on. -/
def overTriples : Encoder := { table := { ints := [{ domain := triples }] } }

/-- The thresholds `4` and `5` have the literal of the value `6`. -/
theorem thresholdLaws_triples :
    overTriples.thresholdLiteral false ⟨0, false⟩ 4 = .ok (.atLeast ⟨0, false⟩ 6 false true) ∧
      4 ∉ triples ∧ IsLeast {u | u ∈ triples ∧ 4 ≤ u} 6 ∧
      {u | u ∈ triples ∧ 4 ≤ u} = {u | u ∈ triples ∧ 5 ≤ u} := by
  have laws := thresholdLaws (e := overTriples) (x := ⟨0, false⟩) rfl rfl
    (⟨by decide, Or.inl (by decide)⟩ : triples.Searchable)
  have h4 : overTriples.thresholdLiteral false ⟨0, false⟩ 4 =
    .ok (.atLeast ⟨0, false⟩ 6 false true) := by decide
  have h5 : overTriples.thresholdLiteral false ⟨0, false⟩ 5 =
    .ok (.atLeast ⟨0, false⟩ 6 false true) := by decide
  obtain ⟨s, hs, -, -, rounded, hl, hrounded⟩ := (laws.laws h4).exists_value (by simp)
  cases hl
  exact ⟨h4, hrounded.mp rfl, hs, (laws.canonical h4 h5).mpr rfl⟩

/-! ### Thresholds without a literal -/

/-- Only rounding can fail. -/
theorem literalOver_eq_error_iff {err : DomainError} :
    literalOver keep d negated x t = .error err ↔
      d.lower < .fin t ∧ .fin t ≤ d.upper ∧ d.roundUp t = .error err := by
  unfold literalOver
  by_cases hlow : .fin t ≤ d.lower
  · rw [if_pos hlow]
    exact iff_of_false (by simp) fun h => h.1 hlow
  rw [if_neg hlow]
  by_cases hup : d.upper < .fin t
  · rw [if_pos hup]
    exact iff_of_false (by simp) fun h => hup h.2.1
  rw [if_neg hup, and_iff_right (show d.lower < .fin t from hlow),
    and_iff_right (Extended.not_lt.mp hup)]
  cases d.roundUp t with
  | ok w => simp
  | error err' => simp

/-- Over the domain of a variable the literal panics with the rounding. -/
theorem literalOver_eq_panic_iff (hd : d.Valid) (ht : Word.Fits t) :
    literalOver keep d negated x t = .error .panic ↔ d.Panics := by
  rw [literalOver_eq_error_iff, hd.roundUp_eq_panic_iff ht]
  refine ⟨fun h => h.2.2, fun hp => ⟨?_, ?_, hp⟩⟩
  · rw [hp.1]
    exact Extended.not_fin_le_negInf
  · rw [hp.2.1]
    exact Extended.le_posInf

/-- Failures that are answered come from rounding that does not get to a value. -/
theorem literalOver_eq_failure_iff {err : DomainError} (hd : d.Valid) (ht : Word.Fits t)
    (herr : err ≠ .panic) : literalOver keep d negated x t = .error err ↔
      d.lower < .fin t ∧ .fin t ≤ d.upper ∧ ¬ d.Panics ∧ ¬ d.Reaches t ∧
        err = d.roundingFailure t := by
  rw [literalOver_eq_error_iff]
  exact and_congr_right fun _ => and_congr_right fun hup => hd.roundUp_eq_error_iff ht hup herr

/-- Asking for a literal fails for an unknown variable or with the literal over the domain. -/
theorem thresholdLiteral_error_cases : e.thresholdLiteral negated x t = .error err ↔
    e.options.roundThresholds = true ∧ (e.table.domain? x = none ∧ err = .unknownInt x ∨
      ∃ d cause, e.table.domain? x = some d ∧
        literalOver e.options.keepThresholds d negated x t = .error cause ∧
          err = .domain cause) := by
  by_cases hr : e.options.roundThresholds = true
  · rw [and_iff_right hr]
    cases hx : e.table.domain? x with
    | none =>
      have hlit : e.thresholdLiteral negated x t = .error (.unknownInt x) := by
        rw [thresholdLiteral, if_pos hr, Encoder.domain, hx]
        rfl
      rw [hlit]
      simp [eq_comm]
    | some d =>
      rw [thresholdLiteral_of_domain hr hx, Except.mapError_eq_error_iff]
      simp [eq_comm]
  · rw [thresholdLiteral, if_neg hr]
    exact iff_of_false (by simp) fun h => hr h.1

/-- **The exact condition under which a threshold has no literal.** If thresholds are rounded, asking
for one panics just when both bounds of the domain are infinite and the opposite of its multiplier does
not fit. A failure is answered just when the variable is unknown or its domain has values that reach
the threshold while rounding does not. -/
theorem thresholdLiteral_eq_error_iff (hT : e.table.Valid) (ht : Word.Fits t) :
    (e.thresholdLiteral negated x t = .error (.domain .panic) ↔
      e.options.roundThresholds = true ∧ ∃ d, e.table.domain? x = some d ∧ d.Panics) ∧
    (∀ err, err ≠ .domain .panic → (e.thresholdLiteral negated x t = .error err ↔
      e.options.roundThresholds = true ∧
        (e.table.domain? x = none ∧ err = .unknownInt x ∨
          ∃ d, e.table.domain? x = some d ∧ d.lower < .fin t ∧ .fin t ≤ d.upper ∧
            ¬ d.Panics ∧ ¬ d.Reaches t ∧ err = .domain (d.roundingFailure t)))) := by
  constructor
  · rw [thresholdLiteral_error_cases]
    refine and_congr_right fun _ => ⟨?_, ?_⟩
    · rintro (⟨-, herr⟩ | ⟨d, cause, hx, hlit, herr⟩)
      · cases herr
      · cases herr
        exact ⟨d, hx, (literalOver_eq_panic_iff (hT x d hx) ht).mp hlit⟩
    · rintro ⟨d, hx, hpanics⟩
      exact Or.inr ⟨d, _, hx, (literalOver_eq_panic_iff (hT x d hx) ht).mpr hpanics, rfl⟩
  · intro err hne
    rw [thresholdLiteral_error_cases]
    refine and_congr_right fun _ => or_congr_right (exists_congr fun d => ⟨?_, ?_⟩)
    · rintro ⟨cause, hx, hlit, rfl⟩
      have hcause : cause ≠ .panic := fun h => hne (by rw [h])
      obtain ⟨hlow, hup, hnot, hreach, rfl⟩ :=
        (literalOver_eq_failure_iff (hT x d hx) ht hcause).mp hlit
      exact ⟨hx, hlow, hup, hnot, hreach, rfl⟩
    · rintro ⟨hx, hlow, hup, hnot, hreach, rfl⟩
      exact ⟨_, hx, (literalOver_eq_failure_iff (hT x d hx) ht
        (roundingFailure_ne_panic d t)).mpr ⟨hlow, hup, hnot, hreach, rfl⟩, rfl⟩

/-- An encoder with one variable, over all multiples of the least number of the range. -/
def overUnbounded : Encoder :=
  { table := { ints := [{ domain := { shape := .interval .negInf .posInf,
                                      multiplier := Word.least } }] } }

/-- The multiples of `3` go on behind the greatest number of the range, where rounding does not
reach. Among the multiples of the least number there is nothing to start from. -/
theorem thresholdLiteral_eq_error_triples :
    (overTriples.thresholdLiteral false ⟨0, false⟩ Word.greatest = .error (.domain .overflow) ∧
      ¬ triples.Reaches Word.greatest) ∧
    overUnbounded.thresholdLiteral false ⟨0, false⟩ 5 = .error (.domain .panic) := by
  have hT : overTriples.table.Valid := VariableTable.valid_of_forall (by decide)
  have herr : overTriples.thresholdLiteral false ⟨0, false⟩ Word.greatest =
    .error (.domain .overflow) := by decide
  have hU : overUnbounded.table.Valid := VariableTable.valid_of_forall (by decide)
  constructor
  · obtain ⟨-, ⟨hx, -⟩ | ⟨d, hx, -, -, -, hnot, -⟩⟩ :=
      ((thresholdLiteral_eq_error_iff hT (by decide)).2 _ (by decide)).mp herr
    · cases hx
    · cases hx
      exact ⟨herr, hnot⟩
  · exact (thresholdLiteral_eq_error_iff hU (by decide)).1.mpr ⟨rfl, _, rfl, rfl, rfl, rfl⟩

/-- The negative numbers of the range and `0`, one value more than can be looked up. -/
def notPositive : Domain :=
  { shape := .intervalWithZero (.fin Word.least) (.fin (-1)), multiplier := 1 }

/-- An encoder with one variable that is not positive. -/
def overNotPositive : Encoder := { table := { ints := [{ domain := notPositive }] } }

/-- Even a value of a closed domain may have no literal. -/
theorem thresholdLiteral_not_found : overNotPositive.table.Valid ∧ 0 ∈ notPositive ∧
    overNotPositive.thresholdLiteral false ⟨0, false⟩ 0 =
      .error (.domain (.outOfRange 0 (.fin 0))) := by
  refine ⟨VariableTable.valid_of_forall (by decide), ⟨0, Or.inl rfl, rfl⟩, ?_⟩
  decide +kernel

end Encoder

end ThresholdEncoding
