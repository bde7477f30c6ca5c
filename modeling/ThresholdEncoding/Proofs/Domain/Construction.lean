import ThresholdEncoding.Domain.FloatingEnds
import ThresholdEncoding.Domain.Record
import ThresholdEncoding.Proofs.Domain.Search
import ThresholdEncoding.Proofs.Domain.Sum

/-!
# Every domain that can be built is enumerated

Domains come from a few constructors, from other domains by scaling and adding, and from records.
All of them are well formed, even those without values. If such a domain is valid and closed, and
positions can address all its values, its values are seen by position from either end as one
increasing sequence.

* `Domain.Constructed`: the ways to get a domain; `Constructed.wellFormed`.
* `Domain.PositionLaws`, `positionLaws_of_constructed`: the values by position.
-/

namespace ThresholdEncoding

variable {d : Domain} {dir : Direction} {k n : Nat} {v : Int}

/-! ### Values by position are values -/

namespace Domain

theorem mem_of_mem_valuesFrom (h : v ∈ d.valuesFrom dir k) : v ∈ d := by
  fun_induction valuesFrom d dir k with
  | case1 k w hw ih =>
    rcases List.mem_cons.mp h with rfl | h
    · exact mem_of_at? hw
    · exact ih h
  | case2 k hk => simp at h

/-! ### Everything that can be built is well formed -/

theorem WellFormed.ofList {l : List Int} (h : ∀ v ∈ l, Word.Fits v) : (ofList l).WellFormed :=
  .of_shape ⟨pairwise_lt_sorted l, fun v hv => h v (mem_sorted.mp hv)⟩

theorem WellFormed.ofIncreasing {l : List Int} (h : ∀ v ∈ l, Word.Fits v) :
    (ofIncreasing l).WellFormed := by
  unfold Domain.ofIncreasing
  split
  · next first last hfirst hlast =>
    split_ifs
    · exact .interval (h first (List.mem_of_head? hfirst)) (h last (List.mem_of_getLast? hlast))
    · exact .ofList h
  · exact .ofList h

/-- The sum of two well-formed domains is well formed, even if one has no values: all values lie
between the bounds, and the sums of the bounds fit. -/
theorem WellFormed.add {a b c : Domain} (ha : a.WellFormed) (hb : b.WellFormed)
    (h : a.add b = .ok c) : c.WellFormed := by
  obtain ⟨-, -, hull, hhull, hc⟩ := add_eq_ok h
  obtain ⟨lo, hi, hlo, hhi, rfl⟩ := addBounds_eq_ok hhull
  rcases hc with rfl | ⟨⟨hca, hcb⟩, -, rfl⟩
  · exact .interval (Extended.fits_of_add? hlo) (Extended.fits_of_add? hhi)
  · refine .ofIncreasing fun v hv => ?_
    obtain ⟨x, hx, hv⟩ := List.mem_flatMap.mp (mem_sorted.mp hv)
    obtain ⟨y, hy, rfl⟩ := List.mem_map.mp hv
    obtain ⟨hx1, hx2⟩ := ha.between (mem_of_mem_valuesFrom hx)
    obtain ⟨hy1, hy2⟩ := hb.between (mem_of_mem_valuesFrom hy)
    obtain ⟨h1, h2⟩ := isOpen_eq_false_iff.mp hca
    obtain ⟨h3, h4⟩ := isOpen_eq_false_iff.mp hcb
    obtain ⟨m, rfl⟩ := Extended.isFinite_iff.mp (Extended.isFinite_of_add? h1 h3 hlo)
    obtain ⟨n, rfl⟩ := Extended.isFinite_iff.mp (Extended.isFinite_of_add? h2 h4 hhi)
    have hlow := Extended.add?_le_fin (Extended.ne_posInf_of_isFinite h1)
      (Extended.ne_posInf_of_isFinite h3) hlo hx1 hy1
    have hup := Extended.fin_le_add? (Extended.ne_negInf_of_isFinite h2)
      (Extended.ne_negInf_of_isFinite h4) hhi hx2 hy2
    exact Word.fits_of_between (Extended.fits_of_add? hlo) (Extended.fits_of_add? hhi)
      (Extended.fin_le_fin.mp hlow) (Extended.fin_le_fin.mp hup)

end Domain

theorem Extended.fits_of_ofBinary64 {x : Binary64} {e : Extended} (h : ofBinary64 x = .ok e) :
    e.Fits := by
  unfold ofBinary64 at h
  split at h
  · cases h
  · cases h
    split_ifs <;> trivial
  · split at h
    · next n hn =>
      cases h
      obtain ⟨m, -, hm⟩ := Option.bind_eq_some_iff.mp hn
      obtain ⟨rfl, hfits⟩ := Word.check?_eq_some_iff.mp hm
      exact hfits
    · cases h

/-- All numbers of an argument fit. -/
def DomainArgument.Fits : DomainArgument → Prop
  | bound n => n.Fits
  | function f => f.Fits
  | values l => ∀ v ∈ l, Word.Fits v

namespace Domain

/-- All numbers of a record fit. -/
def Record.Fits (r : Domain.Record) : Prop := ∀ a ∈ r.arguments, a.Fits

theorem Record.multiplier_eq_ok {r : Domain.Record} {a : DomainArgument} {m : Int}
    (h : r.multiplier a = .ok m) : a = .bound (.fin m) := by
  unfold multiplier at h
  split at h
  · cases h; rfl
  · cases h

/-- The data that a record of a form has to have, with the domain that they give before it is
multiplied, and its multiplier. -/
inductive Record.Describes : Form → List DomainArgument → Domain → Int → Prop
  | interval (lo hi : Extended) (m : Int) :
    Describes .interval [.bound lo, .bound hi, .bound (.fin m)] (.interval lo hi) m
  | intervalWithZero (lo hi : Extended) (m : Int) :
    Describes .intervalWithZero [.bound lo, .bound hi, .bound (.fin m)] (.intervalWithZero lo hi) m
  | listed (l : List Int) (m : Int) :
    Describes .listed [.values l, .bound (.fin m)] (.ofList l) m
  | image {f : MonotoneFn} {lo : Int} {hi : Extended} {e : Domain} (h : image f lo hi = .ok e)
    (m : Int) :
    Describes .image [.bound (.fin lo), .bound hi, .function f, .bound (.fin m)] e m

/-- A record is read by the constructor of its form, followed by the multiplier. -/
theorem Record.buildForm_eq_ok_iff {r : Domain.Record} {form : Form} : r.buildForm form = .ok d ↔
    ∃ e m, Describes form r.arguments e m ∧ e.setMultiplier m = .ok d := by
  constructor
  · intro h
    cases form with
    | interval =>
      simp only [buildForm] at h
      split at h
      · next lo hi a hargs =>
        obtain ⟨m, ha, h⟩ := Except.bind_eq_ok_iff.mp h
        obtain rfl := multiplier_eq_ok ha
        exact ⟨_, m, hargs ▸ .interval lo hi m, h⟩
      · cases h
    | intervalWithZero =>
      simp only [buildForm] at h
      split at h
      · next lo hi a hargs =>
        obtain ⟨m, ha, h⟩ := Except.bind_eq_ok_iff.mp h
        obtain rfl := multiplier_eq_ok ha
        exact ⟨_, m, hargs ▸ .intervalWithZero lo hi m, h⟩
      · cases h
    | listed =>
      simp only [buildForm] at h
      split at h
      · next l a hargs =>
        obtain ⟨m, ha, h⟩ := Except.bind_eq_ok_iff.mp h
        obtain rfl := multiplier_eq_ok ha
        exact ⟨_, m, hargs ▸ .listed l m, h⟩
      · cases h
    | image =>
      simp only [buildForm] at h
      split at h
      · next lo hi f a hargs =>
        obtain ⟨e, he, h⟩ := Except.bind_eq_ok_iff.mp h
        obtain ⟨m, ha, h⟩ := Except.bind_eq_ok_iff.mp h
        obtain rfl := multiplier_eq_ok ha
        exact ⟨e, m, hargs ▸ .image he m, h⟩
      · cases h
  · rintro ⟨e, m, hdata, h⟩
    generalize hargs : r.arguments = args at hdata
    cases hdata with
    | interval => simpa only [buildForm, hargs, multiplier, Except.ok_bind] using h
    | intervalWithZero => simpa only [buildForm, hargs, multiplier, Except.ok_bind] using h
    | listed => simpa only [buildForm, hargs, multiplier, Except.ok_bind] using h
    | image he => simpa only [buildForm, hargs, multiplier, he, Except.ok_bind] using h

theorem Record.Describes.wellFormed {form : Form} {l : List DomainArgument} {m : Int}
    (h : Describes form l d m) (hl : ∀ a ∈ l, a.Fits) : d.WellFormed ∧ Word.Fits m := by
  cases h with
  | interval lo hi =>
    simp only [List.forall_mem_cons] at hl
    exact ⟨.interval hl.1 hl.2.1, hl.2.2.1⟩
  | intervalWithZero lo hi =>
    simp only [List.forall_mem_cons] at hl
    exact ⟨.intervalWithZero hl.1 hl.2.1, hl.2.2.1⟩
  | listed l =>
    simp only [List.forall_mem_cons] at hl
    exact ⟨.ofList hl.1, hl.2.1⟩
  | image himage =>
    simp only [List.forall_mem_cons] at hl
    exact ⟨.image hl.2.2.1 hl.1 hl.2.1 himage, hl.2.2.2.1⟩

theorem Record.wellFormed_of_toDomain {r : Domain.Record} (hr : r.Fits)
    (h : r.toDomain = .ok d) : d.WellFormed := by
  unfold toDomain at h
  obtain ⟨d', hbuild, h⟩ := Except.bind_eq_ok_iff.mp h
  obtain ⟨-, -, h⟩ := Except.bind_eq_ok_iff.mp h
  cases h
  unfold build at hbuild
  split at hbuild
  · obtain ⟨e, m, hdata, hd⟩ := buildForm_eq_ok_iff.mp hbuild
    obtain ⟨he, hm⟩ := hdata.wellFormed hr
    exact he.setMultiplier hm hd
  · cases hbuild

/-- The ways to get a domain. All numbers that are given fit. -/
inductive Constructed : Domain → Prop where
  | interval {lo hi : Extended} (h1 : lo.Fits) (h2 : hi.Fits) : Constructed (.interval lo hi)
  | intervalWithZero {lo hi : Extended} (h1 : lo.Fits) (h2 : hi.Fits) :
    Constructed (.intervalWithZero lo hi)
  | intervalOfBinary64 {lo hi : Binary64} {d : Domain} (h : intervalOfBinary64 lo hi = .ok d) :
    Constructed d
  | intervalWithZeroOfBinary64 {lo hi : Binary64} {d : Domain}
    (h : intervalWithZeroOfBinary64 lo hi = .ok d) : Constructed d
  | ofList {l : List Int} (h : ∀ v ∈ l, Word.Fits v) : Constructed (.ofList l)
  | ofIncreasing {l : List Int} (h : ∀ v ∈ l, Word.Fits v) : Constructed (.ofIncreasing l)
  | image {f : MonotoneFn} {lo : Int} {hi : Extended} {d : Domain} (hf : f.Fits)
    (h1 : Word.Fits lo) (h2 : hi.Fits) (h : image f lo hi = .ok d) : Constructed d
  | setMultiplier {d e : Domain} {m : Int} (hd : Constructed d) (hm : Word.Fits m)
    (h : d.setMultiplier m = .ok e) : Constructed e
  | scale {d e : Domain} {w : Int} (hd : Constructed d) (h : d.scale w = .ok e) : Constructed e
  | add {a b c : Domain} (ha : Constructed a) (hb : Constructed b) (h : a.add b = .ok c) :
    Constructed c
  | record {r : Domain.Record} {d : Domain} (hr : r.Fits) (h : r.toDomain = .ok d) : Constructed d

/-- **Everything that can be built is well formed.** -/
theorem Constructed.wellFormed (h : d.Constructed) : d.WellFormed := by
  induction h with
  | interval h1 h2 => exact .interval h1 h2
  | intervalWithZero h1 h2 => exact .intervalWithZero h1 h2
  | intervalOfBinary64 h =>
    obtain ⟨lo, hlo, h⟩ := Except.bind_eq_ok_iff.mp h
    obtain ⟨hi, hhi, h⟩ := Except.bind_eq_ok_iff.mp h
    cases h
    exact .interval (Extended.fits_of_ofBinary64 hlo) (Extended.fits_of_ofBinary64 hhi)
  | intervalWithZeroOfBinary64 h =>
    obtain ⟨lo, hlo, h⟩ := Except.bind_eq_ok_iff.mp h
    obtain ⟨hi, hhi, h⟩ := Except.bind_eq_ok_iff.mp h
    cases h
    exact .intervalWithZero (Extended.fits_of_ofBinary64 hlo) (Extended.fits_of_ofBinary64 hhi)
  | ofList h => exact .ofList h
  | ofIncreasing h => exact .ofIncreasing h
  | image hf h1 h2 h => exact .image hf h1 h2 h
  | setMultiplier _ hm h ih => exact ih.setMultiplier hm h
  | scale _ h ih => exact ih.scale h
  | add _ _ h iha ihb => exact iha.add ihb h
  | record hr h => exact Record.wellFormed_of_toDomain hr h

/-! ### Values by position -/

/-- The `n` values of a domain are one increasing sequence, which can be addressed from either
end. -/
structure PositionLaws (d : Domain) (n : Nat) : Prop where
  /-- There is a value. -/
  pos : 1 ≤ n
  /-- The positions that hold a value. -/
  isSome_iff : ∀ k, (d.ascending? k).isSome = true ↔ k < n
  /-- Later positions from below hold larger values. -/
  strict : ∀ j k u v, j < k → d.ascending? j = some u → d.ascending? k = some v → u < v
  /-- The positions from above hold the same values in reverse. -/
  descending_eq : ∀ k, d.descending? k = if k < n then d.ascending? (n - 1 - k) else none
  /-- The lower bound is the first value. -/
  lower_eq : (d.ascending? 0).map .fin = some d.lower
  /-- The upper bound is the last value. -/
  upper_eq : (d.ascending? (n - 1)).map .fin = some d.upper
  /-- The values are the multiples of the members of the shape. -/
  exists_iff : ∀ v, (∃ k, d.ascending? k = some v) ↔ ∃ r ∈ d.shape, v = d.multiplier * r
  /-- If the shape lists given values, the values are the multiples of the given ones. -/
  exists_iff_of_list : ∀ l, d.shape = (ofList l).shape →
    ∀ v, (∃ k, d.ascending? k = some v) ↔ ∃ r ∈ l, v = d.multiplier * r

theorem Enumeration.positionLaws {g : Nat → Int} (h : d.Enumeration n g)
    (hn : n ≤ 9223372036854775808) : d.PositionLaws n := by
  have hpos := h.pos
  have hasc : ∀ {k}, k < n → d.ascending? k = some (g k) := fun hk => h.ascending_eq hk (by omega)
  have hmem : ∀ v, (∃ k, d.ascending? k = some v) ↔ v ∈ d := by
    intro v
    rw [h.mem_iff]
    constructor
    · rintro ⟨k, hk⟩
      obtain ⟨hkn, -, hgk⟩ := h.ascending_iff.mp hk
      exact ⟨k, hkn, hgk⟩
    · rintro ⟨k, hk, rfl⟩; exact ⟨k, hasc hk⟩
  constructor
  case pos => exact hpos
  case isSome_iff =>
    intro k
    rw [Option.isSome_iff_exists]
    constructor
    · rintro ⟨v, hv⟩; exact (h.ascending_iff.mp hv).1
    · exact fun hk => ⟨_, hasc hk⟩
  case strict =>
    intro j k u v hjk hj hk
    obtain ⟨-, -, rfl⟩ := h.ascending_iff.mp hj
    obtain ⟨hkn, -, rfl⟩ := h.ascending_iff.mp hk
    exact h.strict hjk hkn
  case descending_eq =>
    intro k
    split_ifs with hk
    · rw [hasc (by omega)]
      exact h.descending_eq hk (by omega)
    · refine Option.eq_none_iff_forall_ne_some.mpr fun v hv => hk (h.descending_iff.mp hv).1
  case lower_eq => rw [hasc hpos, h.lower_eq, Option.map_some]
  case upper_eq => rw [hasc (by omega), h.upper_eq, Option.map_some]
  case exists_iff => exact fun v => (hmem v).trans Domain.mem_iff
  case exists_iff_of_list =>
    intro l hl v
    rw [hmem, Domain.mem_iff, hl]
    refine exists_congr fun r => and_congr_left fun _ => ?_
    exact Shape.mem_listed_iff.trans mem_sorted

/-- **Every valid closed domain that can be built is seen by position as one increasing
sequence**, as long as positions can address all values. -/
theorem positionLaws_of_constructed (h : d.Constructed) (hvalues : d.requireValues = .ok ())
    (hclosed : d.isOpen = false) (hsize : d.size? = some n) (hn : n ≤ 9223372036854775808) :
    d.PositionLaws n := by
  obtain ⟨m, g, hg⟩ := Valid.exists_enumeration ⟨h.wellFormed, hvalues⟩ hclosed
  obtain rfl := hg.size_limit hsize
  exact hg.positionLaws hn

/-- The squares of `-4, …, -1`, times `-2`. -/
def squares : Domain := { shape := .image (.power 2 1) (-4) (.fin (-1)), multiplier := -2 }

theorem positionLaws_squares_add :
    ∃ d, squares.add (.ofList [3, 0, 3]) = .ok d ∧ d.PositionLaws 8 := by
  have hsquares : Constructed squares := by
    have himage : image (.power 2 1) (-4) (.fin (-1)) =
      .ok { shape := .image (.power 2 1) (-4) (.fin (-1)) } := by decide
    exact .scale (w := -2) (.image (by decide) (by decide) (by decide) himage) (by decide)
  have hadd : squares.add (.ofList [3, 0, 3]) =
      .ok { shape := .listed [-32, -29, -18, -15, -8, -5, -2, 1] } := by cbv
  exact ⟨_, hadd, positionLaws_of_constructed (.add hsquares (.ofList (by decide)) hadd) (by decide)
    (by decide) (by decide) (by decide)⟩

end Domain

end ThresholdEncoding
