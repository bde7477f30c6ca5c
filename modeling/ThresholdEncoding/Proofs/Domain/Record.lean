import ThresholdEncoding.Document.Domains
import ThresholdEncoding.Proofs.Domain.Construction

/-!
# Records of domains, there and back

A record of which all numbers fit builds just the well-formed domains whose record is the given one
in canonical form, with listed values in increasing order and without repetitions. Both ways of the
round trip are instances of this: the record of a well-formed domain is canonical already. Documents
tell the kinds of arguments apart, so they give records back as they were written.

* `Record.canonical`: the form of a record that domains have.
* `Record.toDomain_eq_ok_iff`: the valid domain with the canonical record is the one that is read.
* `read?_write_argument`, `read?_write_record`: documents.
* `recordLaws`: both ways.
-/

namespace ThresholdEncoding

open Storable

/-! ### Documents -/

section Documents
variable {n : Int} {x : Extended} {f : MonotoneFn} {a : DomainArgument} {α : Type} [Storable α]

theorem integer?_integer (h : Word.Fits n) : (Document.integer n).integer? = some n :=
  Word.check?_of_fits h

theorem read?_write_int (h : Word.Fits n) : read? (write n) = some n := integer?_integer h

theorem read?_write_list {l : List α} (h : ∀ a ∈ l, read? (write a) = some a) :
    read? (write l) = some l := by
  show (l.map write).mapM read? = some l
  induction l with
  | nil => rfl
  | cons a l ih =>
    obtain ⟨ha, hl⟩ := List.forall_mem_cons.mp h
    simp [ha, ih hl]

theorem read?_write_extended (h : x.Fits) : read? (write x) = some x := by
  cases x with
  | negInf => rfl
  | posInf => rfl
  | fin n =>
    show (Document.integer n).integer?.map Extended.fin = some (.fin n)
    rw [integer?_integer h, Option.map_some]

theorem index?_integer {k limit : Nat} (h : k < limit) :
    (Document.integer k).index? limit = some k := if_pos h

theorem read?_write_function (h : f.Fits) : read? (write f) = some f := by
  cases f with
  | affine s o =>
    show ((Document.integer s).integer?.bind fun s => (Document.integer o).integer?.bind fun o =>
      some (MonotoneFn.affine s o)) = _
    simp only [integer?_integer h.1, integer?_integer h.2, Option.bind_some]
  | power e c =>
    show (((Document.integer e).index? exponentLimit).bind fun e =>
      (Document.integer c).integer?.bind fun c => some (MonotoneFn.power e c)) = _
    have he : e < exponentLimit := Int.ofNat_lt.mp h.1
    simp only [index?_integer he, integer?_integer h.2, Option.bind_some]
  | exponential b c =>
    show ((Document.integer b).integer?.bind fun b => (Document.integer c).integer?.bind fun c =>
      some (MonotoneFn.exponential b c)) = _
    simp only [integer?_integer h.1, integer?_integer h.2, Option.bind_some]

/-- The document of a function is no bound, and that of a list is neither a bound nor a function. -/
theorem read?_write_argument (h : a.Fits) : read? (write a) = some a := by
  cases a with
  | bound n =>
    show ((read? (write n)).map DomainArgument.bound <|> _ <|> _) = _
    rw [read?_write_extended h]
    rfl
  | function f =>
    have hbound : (read? (write f) : Option Extended) = none := by cases f <;> rfl
    show ((read? (write f)).map DomainArgument.bound <|>
      (read? (write f)).map DomainArgument.function <|> _) = _
    rw [hbound, read?_write_function h]
    rfl
  | values l =>
    have hbound : (read? (write l) : Option Extended) = none := rfl
    have hfunction : (read? (write l) : Option MonotoneFn) = none := rfl
    show ((read? (write l)).map DomainArgument.bound <|>
      (read? (write l)).map DomainArgument.function <|>
      (read? (write l)).map DomainArgument.values) = _
    rw [hbound, hfunction, read?_write_list fun v hv => read?_write_int (h v hv)]
    rfl

theorem read?_write_record {r : Domain.Record} (h : r.Fits) : read? (write r) = some r := by
  show ((read? (write r.arguments)).bind fun arguments =>
    some (Domain.Record.mk r.tag arguments)) = _
  rw [read?_write_list fun a ha => read?_write_argument (h a ha), Option.bind_some]

end Documents

/-! ### Canonical records -/

/-- The argument with its values in increasing order and without repetitions. -/
def DomainArgument.canonical : DomainArgument → DomainArgument
  | values l => values l.mergeSort.eraseReps
  | a => a

namespace DomainArgument

variable {a : DomainArgument} {n : Extended} {f : MonotoneFn} {l : List Int}

@[simp] theorem canonical_eq_bound_iff : a.canonical = bound n ↔ a = bound n := by
  cases a <;> simp [canonical]

@[simp] theorem canonical_eq_function_iff : a.canonical = function f ↔ a = function f := by
  cases a <;> simp [canonical]

@[simp] theorem canonical_eq_values_iff :
    a.canonical = values l ↔ ∃ l', a = values l' ∧ l'.mergeSort.eraseReps = l := by
  cases a <;> simp [canonical]

end DomainArgument

theorem Form.name_of_ofName? {s : String} {form : Form} (h : ofName? s = some form) :
    form.name = s := by
  simpa using List.find?_some h

namespace Domain

instance : (a : DomainArgument) → Decidable a.Fits
  | .bound n => inferInstanceAs (Decidable n.Fits)
  | .function f => inferInstanceAs (Decidable f.Fits)
  | .values l => inferInstanceAs (Decidable (∀ v ∈ l, Word.Fits v))

instance (r : Domain.Record) : Decidable r.Fits :=
  inferInstanceAs (Decidable (∀ a ∈ r.arguments, a.Fits))

variable {d e : Domain} {r : Domain.Record} {m : Int}

/-- The record with its values in increasing order and without repetitions. -/
def Record.canonical (r : Domain.Record) : Domain.Record :=
  { r with arguments := r.arguments.map DomainArgument.canonical }

/-- All numbers of a well-formed domain fit. -/
theorem WellFormed.fits_toRecord (h : d.WellFormed) : d.toRecord.Fits := by
  obtain ⟨s, m⟩ := d
  have hm : Word.Fits m := h.fits
  have hs : ∀ a ∈ s.arguments, a.Fits := by
    have hs := h.shape
    cases s with
    | interval lo hi => simpa [Shape.arguments, DomainArgument.Fits] using ⟨hs.1, hs.2⟩
    | intervalWithZero lo hi => simpa [Shape.arguments, DomainArgument.Fits] using ⟨hs.1, hs.2⟩
    | listed l => simpa [Shape.arguments, DomainArgument.Fits] using hs.2
    | image f lo hi =>
      obtain ⟨⟨hf, hlo, hhi⟩, -⟩ := hs
      simpa [Shape.arguments, DomainArgument.Fits] using ⟨hlo, hhi, hf⟩
  intro a ha
  rcases List.mem_append.mp ha with ha | ha
  · exact hs a ha
  · rw [List.mem_singleton.mp ha]
    exact hm

/-- The values of a well-formed domain are in order. -/
theorem WellFormed.canonical_toRecord (h : d.WellFormed) : d.toRecord.canonical = d.toRecord := by
  obtain ⟨s, m⟩ := d
  cases s with
  | interval lo hi => rfl
  | intervalWithZero lo hi => rfl
  | image f lo hi => rfl
  | listed l =>
    simp [Record.canonical, toRecord, Shape.arguments, DomainArgument.canonical,
      sorted_of_pairwise_lt h.shape.1]

/-! ### Reading -/

namespace Record

/-- What is built has the form that is named and the data that are given, in canonical form. -/
theorem Describes.arguments_eq {form : Form} {l : List DomainArgument} (h : Describes form l e m) :
    e.shape.form = form ∧ e.shape.arguments ++ [.bound (.fin m)] = l.map .canonical := by
  cases h with
  | interval => exact ⟨rfl, rfl⟩
  | intervalWithZero => exact ⟨rfl, rfl⟩
  | listed => exact ⟨rfl, rfl⟩
  | image himage =>
    obtain ⟨-, rfl⟩ := image_eq_ok_iff.mp himage
    exact ⟨rfl, rfl⟩

/-- Data that are those of a well-formed domain in canonical form describe its shape. -/
theorem exists_describes {l : List DomainArgument} (h : d.WellFormed)
    (hargs : l.map .canonical = d.toRecord.arguments) :
    ∃ e, Describes d.shape.form l e d.multiplier ∧ e.shape = d.shape := by
  obtain ⟨s, m⟩ := d
  cases s with
  | interval lo hi =>
    obtain rfl : l = [.bound lo, .bound hi, .bound (.fin m)] := by
      simpa [toRecord, Shape.arguments, List.map_eq_cons_iff] using hargs
    exact ⟨_, .interval lo hi m, rfl⟩
  | intervalWithZero lo hi =>
    obtain rfl : l = [.bound lo, .bound hi, .bound (.fin m)] := by
      simpa [toRecord, Shape.arguments, List.map_eq_cons_iff] using hargs
    exact ⟨_, .intervalWithZero lo hi m, rfl⟩
  | listed values =>
    obtain ⟨given, rfl, rfl⟩ : ∃ given : List Int, l = [.values given, .bound (.fin m)] ∧
        given.mergeSort.eraseReps = values := by
      simpa [toRecord, Shape.arguments, List.map_eq_cons_iff] using hargs
    exact ⟨_, .listed given m, rfl⟩
  | image f lo hi =>
    obtain rfl : l = [.bound (.fin lo), .bound hi, .function f, .bound (.fin m)] := by
      simpa [toRecord, Shape.arguments, List.map_eq_cons_iff] using hargs
    exact ⟨_, .image (image_eq_ok_iff.mpr ⟨h.shape.2, rfl⟩) m, rfl⟩

/-- The well-formed domain with the canonical record is the one that is built. -/
theorem build_eq_ok_iff (hr : r.Fits) :
    r.build = .ok d ↔ d.WellFormed ∧ d.toRecord = r.canonical := by
  unfold build
  constructor
  · intro h
    split at h
    · next form hform =>
      obtain ⟨e, m, hdata, hd⟩ := buildForm_eq_ok_iff.mp h
      obtain ⟨he, hm⟩ := hdata.wellFormed hr
      obtain ⟨rfl, hargs⟩ := hdata.arguments_eq
      refine ⟨he.setMultiplier hm hd, ?_⟩
      obtain ⟨-, rfl⟩ := setMultiplier_eq_ok_iff.mp hd
      rw [canonical, ← hargs, ← Form.name_of_ofName? hform]
      rfl
    · cases h
  · rintro ⟨h, hrecord⟩
    have htag : r.tag = d.shape.form.name := (congrArg Record.tag hrecord).symm
    obtain ⟨e, hdata, he⟩ := exists_describes h (congrArg Record.arguments hrecord).symm
    simp only [htag, Form.ofName?_name]
    refine buildForm_eq_ok_iff.mpr ⟨e, _, hdata, setMultiplier_eq_ok_iff.mpr ⟨?_, ?_⟩⟩
    · rw [he]
      exact ⟨h.multiplier_ne_zero, h.lower, h.upper⟩
    · rw [he]

/-- **Reading a record** gives the valid domain with the canonical record, if there is one. -/
theorem toDomain_eq_ok_iff (hr : r.Fits) :
    r.toDomain = .ok d ↔ d.Valid ∧ d.toRecord = r.canonical := by
  unfold toDomain
  simp only [Except.bind_eq_ok_iff, build_eq_ok_iff hr]
  constructor
  · rintro ⟨e, ⟨he, hrecord⟩, ⟨⟩, hvalues, hd⟩
    cases hd
    exact ⟨⟨he, hvalues⟩, hrecord⟩
  · rintro ⟨h, hrecord⟩
    exact ⟨d, ⟨h.toWellFormed, hrecord⟩, (), h.hasValues, rfl⟩

/-- Only lists of values are changed. -/
theorem canonical_eq_self (h : ∀ a ∈ r.canonical.arguments, ∀ l, a ≠ .values l) :
    r.canonical = r := by
  have hself : ∀ a ∈ r.arguments, a.canonical = a := by
    intro a ha
    cases a with
    | bound n => rfl
    | function f => rfl
    | values l => exact absurd rfl (h _ (List.mem_map_of_mem ha) _)
  exact congrArg (Record.mk r.tag) ((List.map_congr_left hself).trans (List.map_id _))

theorem forall_ne_values (h : d.shape.form ≠ .listed) :
    ∀ a ∈ d.toRecord.arguments, ∀ l, a ≠ .values l := by
  obtain ⟨s, m⟩ := d
  cases s with
  | interval lo hi => simp [toRecord, Shape.arguments]
  | intervalWithZero lo hi => simp [toRecord, Shape.arguments]
  | listed l => exact absurd rfl h
  | image f lo hi => simp [toRecord, Shape.arguments]

end Record

/-! ### The contract -/

/-- What is promised about a domain that is stored. -/
structure Persists (d : Domain) : Prop where
  /-- The domain comes back from its record. -/
  toDomain_toRecord : d.toRecord.toDomain = .ok d
  /-- The record comes back from its document. -/
  read?_write_toRecord : read? (write d.toRecord) = some d.toRecord
  /-- The domain comes back from its document. -/
  read?_write : read? (write d) = some d

/-- What is promised about the domain that a record is read as. -/
structure Record.ReadsAs (r : Domain.Record) (d : Domain) : Prop where
  /-- It can be declared. -/
  valid : d.Valid
  /-- Its finite bounds fit. -/
  fits_startBound : ∀ dir, (d.startBound dir).Fits
  /-- Its bounds are exact: finite ones are its first and its last value, and where a bound is
  infinite the values go on for ever. -/
  starts : ∀ dir : Direction, dir.Starts {v | v ∈ d} (d.startBound dir)
  /-- Its record is the given one, apart from the order and the repetitions of listed values. -/
  toRecord_eq : d.toRecord = r.canonical
  /-- If no values are listed its record is the given one. -/
  toRecord_eq_self : r.tag ≠ Form.listed.name → d.toRecord = r

theorem Valid.persists (h : d.Valid) : d.Persists := by
  have hfits := h.toWellFormed.fits_toRecord
  have hdomain : d.toRecord.toDomain = .ok d :=
    (Record.toDomain_eq_ok_iff hfits).mpr ⟨h, h.toWellFormed.canonical_toRecord.symm⟩
  refine ⟨hdomain, read?_write_record hfits, ?_⟩
  show (read? (write d.toRecord)).bind (fun r : Domain.Record => r.toDomain.toOption) = some d
  rw [read?_write_record hfits, Option.bind_some, hdomain]
  rfl

theorem Record.readsAs (hr : r.Fits) (h : r.toDomain = .ok d) : r.ReadsAs d := by
  obtain ⟨hvalid, hrecord⟩ := (toDomain_eq_ok_iff hr).mp h
  have hself : r.tag ≠ Form.listed.name → r.canonical = r := by
    intro htag
    have hform : d.shape.form ≠ .listed := by
      intro hform
      refine htag ?_
      rw [← hform]
      exact (congrArg Record.tag hrecord).symm
    exact canonical_eq_self (hrecord ▸ forall_ne_values hform)
  exact ⟨hvalid, d.fits_startBound, hvalid.starts, hrecord, fun htag => hrecord.trans (hself htag)⟩

/-- **Domains round-trip through records and documents.** Every valid domain comes back, and every
record that is read as a domain is the record of this domain, apart from the order and the
repetitions of listed values. -/
theorem recordLaws : (∀ d : Domain, d.Valid → d.Persists) ∧
    ∀ (r : Domain.Record) (d : Domain), r.Fits → r.toDomain = .ok d → r.ReadsAs d :=
  ⟨fun _ h => h.persists, fun _ _ hr h => Record.readsAs hr h⟩

/-- The domain `squares`, and a list of values that are neither sorted nor different. -/
theorem recordLaws_squares :
    let r : Domain.Record := ⟨"EnumeratedSet", [.values [5, -2, 5, 0], .bound (.fin (-3))]⟩
    let d : Domain := ⟨.listed [-2, 0, 5], -3⟩
    (squares.Valid ∧ squares.Persists) ∧ (r.Fits ∧ r.toDomain = .ok d ∧ r.ReadsAs d) := by
  intro r d
  have hr : r.Fits := by decide
  have hd : r.toDomain = .ok d := by cbv
  exact ⟨⟨by decide, recordLaws.1 squares (by decide)⟩, hr, hd, recordLaws.2 r d hr hd⟩

end Domain

end ThresholdEncoding
