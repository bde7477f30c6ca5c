import ThresholdEncoding.Log
import Mathlib.Tactic

/-!
# Computations that may fail

When a composed computation succeeds, and with what.

* `Except.bind_eq_ok_iff`: both parts succeed.
* `List.mapM_eq_ok_iff`, `List.forM_eq_ok_iff`: every single computation succeeds.
* `List.mapM_flatten_eq_ok_iff`: going through a list of lists one after the other.
-/

variable {ε ε' α β : Type}

namespace Except

@[simp] theorem ok_bind (a : α) (f : α → Except ε β) : (Except.ok a >>= f) = f a := rfl

@[simp] theorem error_bind (err : ε) (f : α → Except ε β) :
    (Except.error err >>= f) = .error err := rfl

@[simp] theorem mapError_ok (g : ε → ε') (a : α) : (Except.ok a).mapError g = .ok a := rfl

@[simp] theorem mapError_error (g : ε → ε') (err : ε) :
    (Except.error err : Except ε α).mapError g = .error (g err) := rfl

theorem bind_eq_ok_iff {x : Except ε α} {f : α → Except ε β} {b : β} :
    x >>= f = .ok b ↔ ∃ a, x = .ok a ∧ f a = .ok b := by
  cases x with
  | ok a => simp
  | error err => simp

theorem mapError_eq_ok_iff {x : Except ε α} {g : ε → ε'} {a : α} :
    x.mapError g = .ok a ↔ x = .ok a := by
  cases x with
  | ok a => simp
  | error err => simp

theorem mapError_eq_error_iff {x : Except ε α} {g : ε → ε'} {err : ε'} :
    x.mapError g = .error err ↔ ∃ cause, x = .error cause ∧ g cause = err := by
  cases x with
  | ok a => simp
  | error cause => simp

theorem map_eq_ok_iff {x : Except ε α} {g : α → β} {b : β} :
    x.map g = .ok b ↔ ∃ a, x = .ok a ∧ g a = b := by
  cases x with
  | ok a => simp [Except.map]
  | error err => simp [Except.map]

end Except

namespace List

variable {f : α → Except ε β}

/-- Going through a list succeeds with the results of all elements. -/
theorem mapM_eq_ok_iff {l : List α} {r : List β} :
    l.mapM f = .ok r ↔ List.Forall₂ (fun a b => f a = .ok b) l r := by
  induction l generalizing r with
  | nil =>
    rw [List.mapM_nil, List.forall₂_nil_left_iff]
    exact ⟨fun h => (Except.ok.inj h).symm, fun h => by rw [h]; rfl⟩
  | cons a l ih =>
    rw [List.mapM_cons, Except.bind_eq_ok_iff, List.forall₂_cons_left_iff]
    constructor
    · rintro ⟨b, hb, h⟩
      obtain ⟨bs, hbs, h⟩ := Except.bind_eq_ok_iff.mp h
      exact ⟨b, bs, hb, ih.mp hbs, (Except.ok.inj h).symm⟩
    · rintro ⟨b, bs, hb, hbs, rfl⟩
      exact ⟨b, hb, Except.bind_eq_ok_iff.mpr ⟨bs, ih.mpr hbs, rfl⟩⟩

theorem exists_mapM_eq_ok {l : List α} (h : ∀ a ∈ l, ∃ b, f a = .ok b) :
    ∃ r, l.mapM f = .ok r := by
  induction l with
  | nil => exact ⟨[], rfl⟩
  | cons a l ih =>
    obtain ⟨⟨b, hb⟩, hl⟩ := List.forall_mem_cons.mp h
    obtain ⟨r, hr⟩ := ih hl
    exact ⟨b :: r, mapM_eq_ok_iff.mpr (.cons hb (mapM_eq_ok_iff.mp hr))⟩

/-- Going through a list of lists gives, in a row, the results for each of them. -/
theorem mapM_flatten_eq_ok_iff {l : List (List α)} {r : List β} :
    l.flatten.mapM f = .ok r ↔ ∃ rs, (l.mapM fun as => as.mapM f) = .ok rs ∧ r = rs.flatten := by
  induction l generalizing r with
  | nil =>
    rw [flatten_nil, mapM_nil, mapM_nil]
    exact ⟨fun h => ⟨[], rfl, (Except.ok.inj h).symm⟩, fun ⟨_, h, hr⟩ => by cases h; rw [hr]; rfl⟩
  | cons a l ih =>
    rw [flatten_cons, mapM_append, mapM_cons]
    simp only [Except.bind_eq_ok_iff, ih]
    constructor
    · rintro ⟨x, hx, _, ⟨rs, hrs, rfl⟩, h⟩
      exact ⟨x :: rs, ⟨x, hx, rs, hrs, rfl⟩, (Except.ok.inj h).symm⟩
    · rintro ⟨_, ⟨x, hx, rs, hrs, h⟩, rfl⟩
      cases h
      exact ⟨x, hx, rs.flatten, ⟨rs, hrs, rfl⟩, rfl⟩

/-- Elements whose results are changed in the same way change all results. -/
theorem mapM_map_eq_ok_iff {g : α → α} {h : β → β}
    (hf : ∀ a, f (g a) = (f a).map h) {l : List α} {r : List β} :
    (l.map g).mapM f = .ok r ↔ ∃ s, l.mapM f = .ok s ∧ r = s.map h := by
  induction l generalizing r with
  | nil =>
    rw [map_nil, mapM_nil]
    exact ⟨fun h => ⟨[], rfl, (Except.ok.inj h).symm⟩, fun ⟨_, h, hr⟩ => by cases h; rw [hr]; rfl⟩
  | cons a l ih =>
    rw [map_cons, mapM_cons, mapM_cons]
    simp only [Except.bind_eq_ok_iff, hf, ih, Except.map_eq_ok_iff]
    constructor
    · rintro ⟨_, ⟨b, hb, rfl⟩, _, ⟨s, hs, rfl⟩, h⟩
      exact ⟨b :: s, ⟨b, hb, s, hs, rfl⟩, (Except.ok.inj h).symm⟩
    · rintro ⟨_, ⟨b, hb, s, hs, h⟩, rfl⟩
      cases h
      exact ⟨_, ⟨b, hb, rfl⟩, _, ⟨s, hs, rfl⟩, rfl⟩

/-- If each element is treated in two stages and meets a condition, so is the list. -/
theorem mapM_stages_eq_ok_iff {γ : Type} {f' : α → Except ε γ} {g : γ → Except ε β} {P : α → Prop}
    {l : List α} (hf : ∀ a ∈ l, ∀ b, f a = .ok b ↔ ∃ c, f' a = .ok c ∧ g c = .ok b ∧ P a)
    {r : List β} :
    l.mapM f = .ok r ↔ ∃ s, l.mapM f' = .ok s ∧ s.mapM g = .ok r ∧ ∀ a ∈ l, P a := by
  induction l generalizing r with
  | nil =>
    rw [mapM_nil, mapM_nil]
    refine ⟨fun h => ⟨[], rfl, h, by simp⟩, ?_⟩
    rintro ⟨s, h, hr, -⟩
    cases h
    exact hr
  | cons a l ih =>
    obtain ⟨ha, hl⟩ := forall_mem_cons.mp hf
    rw [mapM_cons, mapM_cons]
    simp only [Except.bind_eq_ok_iff, ha, ih hl, forall_mem_cons]
    constructor
    · rintro ⟨b, ⟨c, hc, hb, hP⟩, bs, ⟨s, hs, hbs, hPs⟩, h⟩
      refine ⟨c :: s, ⟨c, hc, s, hs, rfl⟩, ?_, hP, hPs⟩
      rw [mapM_cons, hb, Except.ok_bind, hbs]
      exact h
    · rintro ⟨_, ⟨c, hc, s, hs, h⟩, hr, hP, hPs⟩
      cases h
      rw [mapM_cons] at hr
      obtain ⟨b, hb, hr⟩ := Except.bind_eq_ok_iff.mp hr
      obtain ⟨bs, hbs, hr⟩ := Except.bind_eq_ok_iff.mp hr
      exact ⟨b, ⟨c, hc, hb, hP⟩, bs, ⟨s, hs, hbs, hPs⟩, hr⟩

theorem forM_eq_ok_iff {l : List α} {g : α → Except ε Unit} :
    l.forM g = .ok () ↔ ∀ a ∈ l, g a = .ok () := by
  induction l with
  | nil => exact ⟨fun _ a ha => by simp at ha, fun _ => rfl⟩
  | cons a l ih =>
    show (g a >>= fun _ => l.forM g) = .ok () ↔ _
    rw [Except.bind_eq_ok_iff, List.forall_mem_cons, ← ih]
    constructor
    · rintro ⟨⟨⟩, h⟩; exact h
    · exact fun h => ⟨(), h⟩

end List

namespace ThresholdEncoding.LoggedExcept

theorem value_mapM {f : α → LoggedExcept ε β} {l : List α} :
    (l.mapM f).value = l.mapM fun a => (f a).value := by
  induction l with
  | nil => rfl
  | cons a l ih => simp only [List.mapM_cons, value_bind, value_pure, ih]; rfl

theorem value_foldlM {f : β → α → LoggedExcept ε β} {l : List α} {b : β} :
    (l.foldlM f b).value = l.foldlM (fun b a => (f b a).value) b := by
  induction l generalizing b with
  | nil => rfl
  | cons a l ih => simp only [List.foldlM_cons, value_bind, ih]

end ThresholdEncoding.LoggedExcept
