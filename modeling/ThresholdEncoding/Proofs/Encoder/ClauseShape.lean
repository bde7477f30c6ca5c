import ThresholdEncoding.Proofs.Encoder.Consequence
import ThresholdEncoding.Proofs.Encoder.Visited
import ThresholdEncoding.Proofs.VariableTable

/-!
# Shape and number of the clauses

A clause for a sum takes one literal from every term, in the order of the terms: a visited value puts
its literal in front of the clauses for what remains. A walk visits no more values than the domain
has, so the sizes of the domains of all terms but the last bound the number of clauses.

* `Term.HasLiteral`: the literals that a term contributes.
* `forall₂_of_sumClauses`: the literals of a clause for a sum, term by term.
* `length_sumClauses_le`: the number of clauses for a sum.
* `Shaped`, `encode_shaped`: the encoding of a constraint.
-/

namespace ThresholdEncoding

/-- A literal that a term contributes to a clause: a constant, or a threshold literal on its variable
that is negated just when the weight is negative. -/
def Term.HasLiteral (t : Term) : Literal → Prop
  | .const _ => True
  | .atLeast x _ negated _ => x = t.var ∧ negated = decide (t.weight < 0)
  | .raw x _ negated _ => x = t.var ∧ negated = decide (t.weight < 0)
  | .bool _ => False

namespace Encoder

variable {e : Encoder} {overrides : Overrides} {t : Term} {l : Literal} {d : Domain}
variable {bs : List BoundedTerm} {cs : List Clause} {c : LinearConstraint}
variable {restLower restUpper : Extended} {bound v threshold : Int} {negated keep : Bool}
variable {k n : Nat} {us : List Int}

/-! ### Literals -/

section Literals
variable (hneg : negated = decide (t.weight < 0))
include hneg

theorem hasLiteral_of_literalOver (h : literalOver keep d negated t.var threshold = .ok l) :
    t.HasLiteral l := by
  unfold literalOver at h
  split_ifs at h
  · cases h
    trivial
  · cases h
    trivial
  -- rounded, with or without the threshold that was asked for
  all_goals
    obtain ⟨s, -, h⟩ := Except.bind_eq_ok_iff.mp h
    cases h
    exact ⟨rfl, hneg⟩

theorem hasLiteral_of_thresholdLiteral (h : e.thresholdLiteral negated t.var threshold = .ok l) :
    t.HasLiteral l := by
  unfold thresholdLiteral at h
  split_ifs at h
  · obtain ⟨d, -, h⟩ := Except.bind_eq_ok_iff.mp h
    exact hasLiteral_of_literalOver hneg (Except.mapError_eq_ok_iff.mp h)
  · cases h
    exact ⟨rfl, hneg⟩

end Literals

section Weighted
variable (hw : t.weight ≠ 0)
include hw

/-- Literals of positive weights are not negated, those of negative weights are. -/
theorem hasLiteral_of_lastLiteral (h : e.lastLiteral t bound = .ok l) : t.HasLiteral l := by
  unfold lastLiteral at h
  split_ifs at h with hpos
  · exact hasLiteral_of_thresholdLiteral (by simp [hpos.le]) h
  · split at h
    · exact hasLiteral_of_thresholdLiteral (by simp; omega) h
    · cases h
      trivial

theorem hasLiteral_of_leadingLiteral (h : e.leadingLiteral t v = .ok l) : t.HasLiteral l := by
  unfold leadingLiteral Term.direction Direction.ofStep at h
  split_ifs at h with hpos
  · simp only at h
    split at h
    · exact hasLiteral_of_thresholdLiteral (by simp [hpos.le]) h
    · cases h
      trivial
  · exact hasLiteral_of_thresholdLiteral (by simp; omega) h

end Weighted

/-! ### The literals of a clause -/

/-- **The clauses for a sum** have a literal of every term, in the order of the terms. -/
theorem forall₂_of_sumClauses (hbs : ∀ b ∈ bs, b.term.weight ≠ 0)
    (h : (e.sumClauses overrides bs bound).value = .ok cs) :
    ∀ clause ∈ cs, List.Forall₂ Term.HasLiteral (bs.map (·.term)) clause := by
  induction bs generalizing bound cs with
  | nil =>
    rw [value_sumClauses_nil] at h
    cases h
    split_ifs <;> simp
  | cons b bs ih =>
    obtain ⟨hw, hrest⟩ := List.forall_mem_cons.mp hbs
    cases bs with
    | nil =>
      rw [value_sumClauses_single] at h
      obtain ⟨l, hl, h⟩ := Except.bind_eq_ok_iff.mp h
      cases h
      intro clause hclause
      obtain rfl := List.mem_singleton.mp hclause
      exact .cons (hasLiteral_of_lastLiteral hw hl) .nil
    | cons next rest =>
      rw [value_sumClauses_cons] at h
      obtain ⟨w, -, hwalk⟩ := Except.bind_eq_ok_iff.mp h
      refine forall_mem_of_walk (fun v ds _ hds clause hclause => ?_) hwalk
      obtain ⟨l, further, hl, -, hfurther, rfl⟩ := valueClauses_eq_ok_iff.mp hds
      obtain ⟨tail, htail, rfl⟩ := List.mem_map.mp hclause
      exact .cons (hasLiteral_of_leadingLiteral hw hl) (ih hrest hfurther tail htail)

/-! ### The number of clauses -/

/-- A walk visits every position at most once. -/
theorem Walks.length_le (h : Walks t d restLower bound k us)
    (hall : ∀ j u, d.at? t.direction j = some u → j < n) : us.length ≤ n - k := by
  induction h with
  | ended => exact Nat.zero_le _
  | settled => exact Nat.zero_le _
  | visited hat _ _ _ ih =>
    have := hall _ _ hat
    rw [List.length_cons]
    omega

/-- Values are visited over the domain that was asked for. -/
theorem visitedDomain_of_visit {w : Visit}
    (h : e.visit overrides t restLower restUpper bound = .ok w) :
    e.visitedDomain overrides t.var = .ok w.domain := by
  unfold visit at h
  obtain ⟨o, ho, h⟩ := Except.bind_eq_ok_iff.mp h
  simp only at h
  split_ifs at h
  all_goals
    obtain ⟨s, -, h⟩ := Except.bind_eq_ok_iff.mp h
    cases h
  exact ho

/-- A list of results with at most `m` elements each has at most `m` for every element. -/
theorem length_flatten_le {f : Int → Except EncodeError (List Clause)} {m : Nat}
    {css : List (List Clause)} (hf : ∀ u ds, f u = .ok ds → ds.length ≤ m)
    (h : us.mapM f = .ok css) : css.flatten.length ≤ us.length * m := by
  induction List.mapM_eq_ok_iff.mp h with
  | nil => simp
  | cons hu hus ih =>
    have hhere := hf _ _ hu
    have hfurther := ih (List.mapM_eq_ok_iff.mpr hus)
    rw [List.flatten_cons, List.length_append, List.length_cons, Nat.succ_mul]
    omega

/-- **There are at most as many clauses for a sum** as there are ways to choose a value for all terms
but the last. -/
theorem length_sumClauses_le {ns : List Nat} (h : (e.sumClauses overrides bs bound).value = .ok cs)
    (hns : List.Forall₂ (fun b n => ∃ d, e.visitedDomain overrides b.term.var = .ok d ∧ d.Valid ∧
      d.size? = some n) bs.dropLast ns) : cs.length ≤ ns.prod := by
  induction bs generalizing bound cs ns with
  | nil =>
    rw [value_sumClauses_nil] at h
    cases h
    cases hns
    split_ifs <;> simp
  | cons b bs ih =>
    cases bs with
    | nil =>
      rw [value_sumClauses_single] at h
      obtain ⟨l, -, h⟩ := Except.bind_eq_ok_iff.mp h
      cases h
      cases hns
      simp
    | cons next rest =>
      obtain ⟨n, ns, ⟨d, hd, hvalid, hsize⟩, hrest, rfl⟩ := List.forall₂_cons_left_iff.mp hns
      obtain ⟨us, css, ⟨w, hw, hus⟩, hcss, rfl⟩ := sumClauses_eq_ok_iff.mp h
      have hdom : w.domain = d := Except.ok.inj ((visitedDomain_of_visit hw).symm.trans hd)
      rw [hdom] at hus
      have hvisited : us.length ≤ n :=
        (hus.length_le fun j u hat => hvalid.lt_of_size? hsize hat).trans (Nat.sub_le _ _)
      have hvalue : ∀ u ds, (e.valueClauses overrides b.term (next :: rest) bound u
          (b.term.weight * u)).value = .ok ds → ds.length ≤ ns.prod := by
        intro u ds hds
        obtain ⟨l, further, -, -, hfurther, rfl⟩ := valueClauses_eq_ok_iff.mp hds
        rw [List.length_map]
        exact ih hfurther hrest
      rw [List.prod_cons]
      exact (length_flatten_le hvalue hcss).trans (Nat.mul_le_mul_right _ hvisited)

/-! ### Constraints -/

/-- What the clauses of a constraint look like, and how many there are. -/
structure Shaped (e : Encoder) (c : LinearConstraint) (cs : List Clause) : Prop where
  /-- A clause has a literal of every term, in the order of the terms, and then the attached literal
  of a reification. -/
  exists_literals : ∀ clause ∈ cs, ∃ literals, List.Forall₂ Term.HasLiteral c.terms literals ∧
    clause = literals ++ (c.reification.map fun r => Literal.bool r.lit).toList
  /-- All clauses are equally long. -/
  length_eq : ∀ clause ∈ cs,
    clause.length = c.terms.length + if c.reification.isSome then 1 else 0
  /-- So their number gives the number of literals. -/
  literalCount_eq : (Encoding.clauses cs).literalCount =
    (Encoding.clauses cs).clauseCount * (c.terms.length + if c.reification.isSome then 1 else 0)
  /-- There are at most as many clauses as ways to choose a value for all terms but the last. -/
  clauseCount_le : ∀ ns : List Nat, List.Forall₂ (fun t n => ∃ d,
      e.table.domain? t.var = some d ∧ d.size? = some n) c.terms.dropLast ns →
    (Encoding.clauses cs).clauseCount ≤ ns.prod

theorem length_attached : (attached c).length = if c.reification.isSome then 1 else 0 := by
  unfold attached
  cases c.reification <;> rfl

/-- Equally long clauses. -/
theorem length_flatten_eq {m : Nat} (h : ∀ clause ∈ cs, clause.length = m) :
    cs.flatten.length = cs.length * m := by
  rw [List.length_flatten, List.map_congr_left h, List.map_const', List.sum_replicate, smul_eq_mul]

/-- **The clauses of every constraint are in shape**, with all options. -/
theorem encode_shaped (e : Encoder) (c : LinearConstraint) (hT : e.table.Valid)
    (hweights : ∀ t ∈ c.terms, t.weight ≠ 0) (cs : List Clause)
    (h : (e.encode c).value = .ok (.clauses cs)) : e.Shaped c cs := by
  obtain ⟨bs, ds, hbs, -, hds, rfl⟩ := encodeOver_eq_clauses_iff.mp h
  obtain ⟨hterms, -⟩ := bounded_of_mapM hbs
  have hweights' : ∀ b ∈ bs, b.term.weight ≠ 0 := fun b hb =>
    hweights b.term (hterms ▸ List.mem_map_of_mem hb)
  have hliterals : ∀ clause ∈ ds.map (· ++ attached c), ∃ literals,
      List.Forall₂ Term.HasLiteral c.terms literals ∧ clause = literals ++ attached c := by
    intro clause hclause
    obtain ⟨literals, hmem, rfl⟩ := List.mem_map.mp hclause
    exact ⟨literals, hterms ▸ forall₂_of_sumClauses hweights' hds literals hmem, rfl⟩
  have hlength : ∀ clause ∈ ds.map (· ++ attached c),
      clause.length = c.terms.length + if c.reification.isSome then 1 else 0 := by
    intro clause hclause
    obtain ⟨literals, hall, rfl⟩ := hliterals clause hclause
    rw [List.length_append, ← hall.length_eq, length_attached]
  refine ⟨hliterals, hlength, length_flatten_eq hlength, fun ns hns => ?_⟩
  show (ds.map (· ++ attached c)).length ≤ ns.prod
  rw [List.length_map]
  refine length_sumClauses_le hds ?_
  rw [← hterms, ← List.map_dropLast, List.forall₂_map_left_iff] at hns
  refine hns.imp fun b n ⟨d, hd, hsize⟩ => ⟨d, ?_, hT _ d hd, hsize⟩
  exact domain_eq_ok hd

/-- A variable with the values `0`, `1`, `4`, one with the values `0`, `1`, `2`, and a boolean
variable. -/
def gappedEncoder : Encoder where
  table := {
    ints := [⟨{ shape := .listed [0, 1, 4] }, false⟩, ⟨.interval (.fin 0) (.fin 2), false⟩]
    bools := [false] }

/-- The constraint `x₁ - 2·x₂ ≥ -1`, unless the boolean variable is true. -/
def excusedConstraint : LinearConstraint where
  terms := [⟨⟨0, false⟩, 1⟩, ⟨⟨1, false⟩, -2⟩]
  bound := -1
  reification := some ⟨⟨0, false⟩, true⟩

/-- It has two clauses of three literals, and could have had three. -/
theorem encode_shaped_gapped :
    let excuse := Literal.bool ⟨⟨0, false⟩, false⟩
    let cs := [[.atLeast ⟨0, false⟩ 1 false false, .atLeast ⟨1, false⟩ 1 true false, excuse],
      [.atLeast ⟨0, false⟩ 4 false true, .atLeast ⟨1, false⟩ 2 true false, excuse]]
    (gappedEncoder.encode excusedConstraint).value = .ok (.clauses cs) ∧
      gappedEncoder.Shaped excusedConstraint cs := by
  intro excuse cs
  have h : (gappedEncoder.encode excusedConstraint).value = .ok (.clauses cs) := by decide +kernel
  exact ⟨h, encode_shaped gappedEncoder excusedConstraint
    (VariableTable.valid_of_forall (by decide)) (by decide) cs h⟩

end Encoder

end ThresholdEncoding
