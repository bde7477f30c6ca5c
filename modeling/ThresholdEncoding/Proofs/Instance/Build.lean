import ThresholdEncoding.Instance.Relations
import ThresholdEncoding.Proofs.Except

/-!
# How computations on instances end

A computation either yields an answer or fails, and leaves an instance in both cases.

* `yields_bind_iff`, `fails_bind_iff`: how a composed computation ends.
* `after_bind_of`: what all parts of a computation preserve is preserved.
* `yields_addInt_bind_iff`, `yields_require_bind_iff`, …: computations that start with a basic step.
-/

namespace ThresholdEncoding

/-- The instance with a constraint at the end. -/
def Instance.push (i : Instance) (c : LinearConstraint) : Instance :=
  { i with constraints := i.constraints ++ [c] }

/-- The instance with the next integer variable declared. -/
def Instance.addInt (i : Instance) (d : Domain) (introduced : Bool) : Instance :=
  { i with table := i.table.addInt d introduced, unbounded := i.unbounded || d.isOpen }

/-- The instance with the next boolean variable declared. -/
def Instance.addBool (i : Instance) (introduced : Bool) : Instance :=
  { i with table := i.table.addBool introduced }

namespace Build

variable {α β : Type}

/-- The computation succeeds with the answer `a` and leaves `j`. -/
def Yields (x : Build α) (i : Instance) (a : α) (j : Instance) : Prop :=
  x.result i = .ok a ∧ x.after i = j

/-- The computation fails and leaves `j`. -/
def Fails (x : Build α) (i j : Instance) : Prop := (∃ err, x.result i = .error err) ∧ x.after i = j

variable {x : Build α} {f : α → Build β} {i j k : Instance} {a : α} {b : β}

theorem yields_congr {y : Build α} (h : x.run i = y.run i) : x.Yields i a j ↔ y.Yields i a j := by
  unfold Yields result after
  rw [h]

theorem fails_congr {y : Build α} (h : x.run i = y.run i) : x.Fails i j ↔ y.Fails i j := by
  unfold Fails result after
  rw [h]

/-! ### Composition -/

theorem yields_bind_iff :
    (x >>= f).Yields i b k ↔ ∃ a j, x.Yields i a j ∧ (f a).Yields j b k := by
  unfold Yields
  rw [result_bind, after_bind]
  cases h : x.result i with
  | ok a => simp
  | error err => simp

theorem yields_stage_iff {x : Build Unit} {f : Unit → Build β} :
    (x >>= f).Yields i b k ↔ ∃ j, x.Yields i () j ∧ (f ()).Yields j b k :=
  yields_bind_iff.trans ⟨fun ⟨_, h⟩ => h, fun h => ⟨(), h⟩⟩

theorem yields_forM_cons_iff {g : α → Build Unit} {l : List α} :
    ((a :: l).forM g).Yields i () k ↔ ∃ j, (g a).Yields i () j ∧ (l.forM g).Yields j () k :=
  yields_stage_iff

theorem fails_bind_iff : (x >>= f).Fails i k ↔
    x.Fails i k ∨ ∃ a j, x.Yields i a j ∧ (f a).Fails j k := by
  unfold Fails Yields
  rw [result_bind, after_bind]
  cases h : x.result i with
  | ok a => simp
  | error err => simp

theorem Yields.bind (h1 : x.Yields i a j) (h2 : (f a).Yields j b k) : (x >>= f).Yields i b k :=
  yields_bind_iff.mpr ⟨a, j, h1, h2⟩

theorem Fails.bind (h : x.Fails i k) : (x >>= f).Fails i k := fails_bind_iff.mpr (Or.inl h)

theorem Yields.bind_fails (h1 : x.Yields i a j) (h2 : (f a).Fails j k) : (x >>= f).Fails i k :=
  fails_bind_iff.mpr (Or.inr ⟨a, j, h1, h2⟩)

theorem Fails.unique (h : x.Fails i j) (h' : x.Fails i k) : j = k := h.2.symm.trans h'.2

theorem Yields.not_fails (h : x.Yields i a j) : ¬ x.Fails i k := by
  rintro ⟨⟨err, herr⟩, -⟩
  rw [h.1] at herr
  cases herr

/-- A property that each part of a computation preserves holds after the computation, whether it
succeeds or not. -/
theorem after_bind_of {P : Instance → Prop} (hx : P (x.after i))
    (hf : ∀ a, x.result i = .ok a → P ((f a).after (x.after i))) : P ((x >>= f).after i) := by
  rw [after_bind]
  cases h : x.result i with
  | ok a => exact hf a h
  | error err => exact hx

theorem after_forM_of {P : Instance → Prop} {g : α → Build Unit} {l : List α} (hi : P i)
    (hg : ∀ a ∈ l, ∀ i, P i → P ((g a).after i)) : P ((l.forM g).after i) := by
  induction l generalizing i with
  | nil => exact hi
  | cons a l ih =>
    show P ((g a >>= fun _ => l.forM g).after i)
    exact after_bind_of (hg a (by simp) i hi) fun _ _ =>
      ih (hg a (by simp) i hi) fun a ha => hg a (List.mem_cons_of_mem _ ha)

/-! ### Steps -/

@[simp] theorem yields_pure_iff {a' : α} :
    (pure a : Build α).Yields i a' j ↔ a' = a ∧ j = i := by
  simp [Yields, eq_comm]

@[simp] theorem not_fails_pure : ¬ (pure a : Build α).Fails i j := by
  simp [Fails]

theorem yields_modifyGet_iff {m : Instance → α × Instance} :
    (modifyGet m : Build α).Yields i a j ↔ a = (m i).1 ∧ j = (m i).2 := by
  show (Except.ok _ = Except.ok a ∧ (m i).2 = j) ↔ _
  rw [Except.ok.injEq, eq_comm, eq_comm (a := j)]

theorem yields_modify_iff {m : Instance → Instance} :
    (modify m : Build Unit).Yields i () j ↔ j = m i :=
  yields_modifyGet_iff.trans (and_iff_right rfl)

theorem yields_push_iff {c : LinearConstraint} {n : Nat} :
    (push c).Yields i n j ↔ n = i.constraints.length ∧ j = i.push c := yields_modifyGet_iff

theorem yields_addBool_iff {introduced : Bool} {y : BoolVar} : (addBool introduced).Yields i y j ↔
    y = i.table.nextBool introduced ∧ j = i.addBool introduced := yields_modifyGet_iff

section
variable {f : α → Build β} {g : Instance → Build β} {c : VariableTable → Except InstanceError Unit}

theorem yields_get_bind_iff : (get >>= g).Yields i b k ↔ (g i).Yields i b k := Iff.rfl

theorem fails_get_bind_iff : (get >>= g).Fails i k ↔ (g i).Fails i k := Iff.rfl

theorem yields_ofExcept_bind_iff {x : Except InstanceError α} :
    (ofExcept x >>= f).Yields i b k ↔ ∃ a, x = .ok a ∧ (f a).Yields i b k := by
  rw [yields_bind_iff]
  cases x <;> simp [Yields]

theorem fails_ofExcept_bind_iff {x : Except InstanceError α} : (ofExcept x >>= f).Fails i k ↔
    (∀ a, x ≠ .ok a) ∧ k = i ∨ ∃ a, x = .ok a ∧ (f a).Fails i k := by
  rw [fails_bind_iff]
  cases x <;> simp [Yields, Fails, eq_comm]

theorem yields_ofLogged_bind_iff {x : LoggedExcept InstanceError α} :
    (ofLogged x >>= f).Yields i b k ↔ ∃ a, x.value = .ok a ∧ (f a).Yields i b k := by
  rw [yields_bind_iff]
  simp [Yields]

theorem fails_ofLogged_bind_iff {x : LoggedExcept InstanceError α} :
    (ofLogged x >>= f).Fails i k ↔
      (∀ a, x.value ≠ .ok a) ∧ k = i ∨ ∃ a, x.value = .ok a ∧ (f a).Fails i k := by
  rw [fails_bind_iff]
  cases h : x.value <;> simp [Yields, Fails, h, eq_comm]

theorem yields_require_bind_iff {f : Unit → Build β} : (require c >>= f).Yields i b k ↔
    c i.table = .ok () ∧ (f ()).Yields i b k := by
  show (ofExcept (c i.table) >>= f).Yields i b k ↔ _
  rw [yields_ofExcept_bind_iff]
  exact ⟨fun ⟨_, h⟩ => h, fun h => ⟨(), h⟩⟩

theorem fails_require_bind_iff {f : Unit → Build β} : (require c >>= f).Fails i k ↔
    c i.table ≠ .ok () ∧ k = i ∨ c i.table = .ok () ∧ (f ()).Fails i k := by
  show (ofExcept (c i.table) >>= f).Fails i k ↔ _
  rw [fails_ofExcept_bind_iff]
  exact or_congr (and_congr_left fun _ => ⟨fun h => h (), fun h _ => h⟩)
    ⟨fun ⟨_, h⟩ => h, fun h => ⟨(), h⟩⟩

theorem yields_note_bind_iff {e : LogEvent} {f : Unit → Build β} :
    (note e >>= f).Yields i b k ↔ (f ()).Yields i b k := Iff.rfl

theorem fails_note_bind_iff {e : LogEvent} {f : Unit → Build β} :
    (note e >>= f).Fails i k ↔ (f ()).Fails i k := Iff.rfl

theorem yields_push_bind_iff {c : LinearConstraint} {f : Nat → Build β} :
    (push c >>= f).Yields i b k ↔ (f i.constraints.length).Yields (i.push c) b k := Iff.rfl

theorem fails_push_bind_iff {c : LinearConstraint} {f : Nat → Build β} :
    (push c >>= f).Fails i k ↔ (f i.constraints.length).Fails (i.push c) k := Iff.rfl

theorem yields_addBool_bind_iff {introduced : Bool} {f : BoolVar → Build β} :
    (addBool introduced >>= f).Yields i b k ↔
      (f (i.table.nextBool introduced)).Yields (i.addBool introduced) b k := Iff.rfl

variable {d : Domain} {introduced : Bool}

theorem yields_addInt_iff {x : IntVar} : (addInt d introduced).Yields i x j ↔
    d.requireValues = .ok () ∧ x = i.table.nextInt introduced ∧ j = i.addInt d introduced := by
  unfold addInt
  rw [yields_ofExcept_bind_iff]
  constructor
  · rintro ⟨⟨⟩, h, h1, h2⟩
    exact ⟨Except.mapError_eq_ok_iff.mp h, (Except.ok.inj h1).symm, h2.symm⟩
  · rintro ⟨h, rfl, rfl⟩; exact ⟨(), Except.mapError_eq_ok_iff.mpr h, rfl, rfl⟩

theorem fails_addInt_iff :
    (addInt d introduced).Fails i j ↔ d.requireValues ≠ .ok () ∧ j = i := by
  unfold addInt
  rw [fails_ofExcept_bind_iff]
  constructor
  · rintro (⟨h, rfl⟩ | ⟨_, -, ⟨⟨err, h⟩, -⟩⟩)
    · exact ⟨fun hd => h () (Except.mapError_eq_ok_iff.mpr hd), rfl⟩
    · cases h
  · rintro ⟨h, rfl⟩
    exact Or.inl ⟨fun _ hd => h (Except.mapError_eq_ok_iff.mp hd), rfl⟩

theorem yields_addInt_bind_iff {f : IntVar → Build β} : (addInt d introduced >>= f).Yields i b k ↔
    d.requireValues = .ok () ∧
      (f (i.table.nextInt introduced)).Yields (i.addInt d introduced) b k := by
  rw [yields_bind_iff]
  simp only [yields_addInt_iff]
  exact ⟨fun ⟨_, _, ⟨h1, rfl, rfl⟩, h2⟩ => ⟨h1, h2⟩, fun ⟨h1, h2⟩ => ⟨_, _, ⟨h1, rfl, rfl⟩, h2⟩⟩

theorem fails_addInt_bind_iff {f : IntVar → Build β} : (addInt d introduced >>= f).Fails i k ↔
    d.requireValues ≠ .ok () ∧ k = i ∨ d.requireValues = .ok () ∧
      (f (i.table.nextInt introduced)).Fails (i.addInt d introduced) k := by
  rw [fails_bind_iff]
  simp only [yields_addInt_iff, fails_addInt_iff]
  exact or_congr_right
    ⟨fun ⟨_, _, ⟨h1, rfl, rfl⟩, h2⟩ => ⟨h1, h2⟩, fun ⟨h1, h2⟩ => ⟨_, _, ⟨h1, rfl, rfl⟩, h2⟩⟩

end

end Build

end ThresholdEncoding
