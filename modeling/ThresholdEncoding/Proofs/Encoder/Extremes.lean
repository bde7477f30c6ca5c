import ThresholdEncoding.Proofs.Domain.Extent
import ThresholdEncoding.Proofs.Encoder.Equivalence
import ThresholdEncoding.Proofs.VariableTable

/-!
# Exact extremes of sums

The terms of a constraint are bounded by what their exact extremes are computed as, whatever the
magnitudes are. An exact extreme of a term is where its values start, seen from one side, and the
extremes of all terms add up to where the sums start.

* `VariableTable.values`, `VariableTable.sums`: the values of a term and of a list of terms.
* `mem_sums_iff_of_nodup`: the sums under valuations.
* `VariableTable.extreme`: the exact extreme of a term.
* `mapM_bounded_eq`: the computed bounds.
* `starts_extreme`, `starts_sums`: what the extremes are.
-/

namespace ThresholdEncoding

namespace VariableTable

/-- The values that a term can take. -/
def values (T : VariableTable) (t : Term) : Set Int :=
  {n | ∃ d v, T.domain? t.var = some d ∧ v ∈ d ∧ n = t.weight * v}

/-- The sums of one value of each term. -/
def sums (T : VariableTable) : List Term → Set Int
  | [] => {0}
  | t :: ts => Set.image2 (· + ·) (T.values t) (T.sums ts)

/-- Where the values of a term start in a direction: the exact minimum or infimum from below, the
exact maximum or supremum from above. -/
def extreme (T : VariableTable) (dir : Direction) (t : Term) : Extended :=
  match T.domain? t.var with
  | some d => (d.startBound (dir.times t.weight)).times t.weight
  | none => dir.reverse.infinity

/-- The exact extremes of a list of terms. -/
def extremes (T : VariableTable) (dir : Direction) (ts : List Term) : List Extended :=
  ts.map (T.extreme dir)

variable {T : VariableTable} {dir : Direction} {t : Term} {ts : List Term} {ν : Valuation}

/-- Values of the domains give a sum. -/
theorem sum_mem_sums (hν : ∀ t ∈ ts, ∃ d, T.domain? t.var = some d ∧ ν.int t.var ∈ d) :
    ν.sum ts ∈ T.sums ts := by
  induction ts with
  | nil => rfl
  | cons t ts ih =>
    obtain ⟨⟨d, hd, hmem⟩, hts⟩ := List.forall_mem_cons.mp hν
    rw [Valuation.sum_cons]
    exact Set.mem_image2_of_mem ⟨d, _, hd, hmem, rfl⟩ (ih hts)

/-- **The sums of terms over different variables** are the sums under valuations. If a variable
occurs twice there are more sums, as its terms need not take the same value in them. -/
theorem mem_sums_iff_of_nodup {n : Int} (hdistinct : (ts.map (·.var)).Nodup) :
    n ∈ T.sums ts ↔ ∃ ν : Valuation,
      (∀ t ∈ ts, ∃ d, T.domain? t.var = some d ∧ ν.int t.var ∈ d) ∧ ν.sum ts = n := by
  refine ⟨fun hn => ?_, fun ⟨ν, hν, hsum⟩ => hsum ▸ sum_mem_sums hν⟩
  induction ts generalizing n with
  | nil => exact ⟨⟨fun _ => 0, fun _ => false⟩, by simp, Eq.symm hn⟩
  | cons t ts ih =>
    obtain ⟨_, ⟨d, v, hd, hv, rfl⟩, m, hm, rfl⟩ := hn
    obtain ⟨hnew, hdistinct⟩ := List.nodup_cons.mp hdistinct
    obtain ⟨ν, hν, rfl⟩ := ih hdistinct hm
    -- the value of the new variable does not touch the others
    have hself : (ν.setInt t.var v).int t.var = v := Function.update_self ..
    have hother : ∀ u ∈ ts, (ν.setInt t.var v).int u.var = ν.int u.var := by
      intro u hu
      refine Function.update_of_ne (fun h => hnew ?_) ..
      exact List.mem_map.mpr ⟨u, hu, h⟩
    refine ⟨ν.setInt t.var v, List.forall_mem_cons.mpr ⟨⟨d, hd, ?_⟩, fun u hu => ?_⟩, ?_⟩
    · rwa [hself]
    · rw [hother u hu]
      exact hν u hu
    · rw [Valuation.sum_cons, hself, Valuation.sum_congr hother]

/-- **The values of a term** start at its extreme. -/
theorem starts_extreme (hT : T.Valid) (ht : T.declaresInt t.var = true) (hw : t.weight ≠ 0)
    (dir : Direction) : dir.Starts (T.values t) (T.extreme dir t) := by
  obtain ⟨d, hd⟩ := declaresInt_iff.mp ht
  have h := ((hT _ d hd).starts (dir.times t.weight)).mul hw
  have hdir : (dir.times t.weight).times t.weight = dir := by
    unfold Direction.times
    split_ifs
    · rfl
    · exact Direction.reverse_reverse dir
  have hset : T.values t = (· * t.weight) '' {v | v ∈ d} := by
    ext n
    simp only [values, hd, Set.mem_ofPred_eq, Set.mem_image, Option.some.injEq, mul_comm t.weight,
      @eq_comm _ n]
    exact ⟨fun ⟨_, v, rfl, h⟩ => ⟨v, h⟩, fun ⟨v, h⟩ => ⟨d, v, rfl, h⟩⟩
  rw [hdir] at h
  rw [hset, extreme, hd]
  exact h

/-- **The sums** of terms with finite extremes start at the sum of the extremes. -/
theorem starts_sums (dir : Direction) (hT : T.Valid) (hts : T.DeclaresTerms ts)
    (hfin : ∀ x ∈ T.extremes dir ts, x.isFinite = true) :
    dir.Starts (T.sums ts) (.fin (Extended.finiteSum (T.extremes dir ts))) := by
  induction ts with
  | nil =>
    refine ⟨rfl, ?_⟩
    rintro _ rfl
    exact Direction.Precedes.irrefl
  | cons t ts ih =>
    obtain ⟨⟨ht, hw⟩, hts⟩ := declaresTerms_cons_iff.mp hts
    rw [extremes, List.map_cons, List.forall_mem_cons] at hfin
    obtain ⟨n, hn⟩ := Extended.isFinite_iff.mp hfin.1
    have hstart := starts_extreme hT ht hw dir
    rw [hn] at hstart
    rw [extremes, List.map_cons, hn, Extended.finiteSum_cons_fin]
    exact hstart.add (ih hts hfin.2)

end VariableTable

namespace Encoder

variable {e : Encoder} {t : Term} {ts : List Term}

/-- A term with the bounds that are computed for its extremes. -/
def clipped (T : VariableTable) (t : Term) : BoundedTerm :=
  ⟨t, (T.extreme .ascending t).clip, (T.extreme .descending t).clip⟩

theorem bounded_eq_clipped (ht : e.table.declaresInt t.var = true) (hw : t.weight ≠ 0) :
    e.bounded t = .ok (clipped e.table t) := by
  obtain ⟨d, hd⟩ := VariableTable.declaresInt_iff.mp ht
  rw [bounded_eq hd hw, clipped, VariableTable.extreme, VariableTable.extreme, hd,
    Extended.scale_eq_clip_times, Extended.scale_eq_clip_times,
    show t.direction = Direction.ascending.times t.weight from rfl, Direction.reverse_times]
  rfl

/-- **The computed bounds** are what the exact extremes are computed as. -/
theorem mapM_bounded_eq (hts : e.table.DeclaresTerms ts) :
    ts.mapM e.bounded = .ok (ts.map (clipped e.table)) := by
  rw [List.mapM_eq_ok_iff, List.forall₂_map_right_iff, List.forall₂_same]
  exact fun t ht => bounded_eq_clipped (hts t ht).1 (hts t ht).2

/-- **The bounds of a sum**, as they are computed. -/
theorem sum_lower_clipped {T : VariableTable} : Extended.sum ((ts.map (clipped T)).map (·.lower)) =
    ((Extended.departure? 0 (T.extremes .ascending ts)).map Direction.infinity).getD
      (.fin (Extended.finiteSum (T.extremes .ascending ts))) := by
  rw [List.map_map, ← Extended.sum_map_clip, VariableTable.extremes, List.map_map]
  rfl

theorem sum_upper_clipped {T : VariableTable} : Extended.sum ((ts.map (clipped T)).map (·.upper)) =
    ((Extended.departure? 0 (T.extremes .descending ts)).map Direction.infinity).getD
      (.fin (Extended.finiteSum (T.extremes .descending ts))) := by
  rw [List.map_map, ← Extended.sum_map_clip, VariableTable.extremes, List.map_map]
  rfl

/-- A variable of two values, and variables of one value each whose sums leave the range on the way
and come back. -/
def spreadEncoder : Encoder where
  table := { ints := [⟨.interval (.fin 0) (.fin 1), false⟩,
    ⟨.interval (.fin 4611686018427387904) (.fin 4611686018427387904), false⟩,
    ⟨.interval (.fin 4611686018427387904) (.fin 4611686018427387904), false⟩,
    ⟨.interval (.fin (-4611686018427387905)) (.fin (-4611686018427387905)), false⟩,
    ⟨.interval (.fin (-4611686018427387905)) (.fin (-4611686018427387905)), false⟩] }

theorem valid_spreadEncoder : spreadEncoder.table.Valid :=
  VariableTable.valid_of_forall (by decide)

end Encoder

end ThresholdEncoding
