import ThresholdEncoding.Word

/-!
# Integers with two infinities

The ends of a set of values that may be open. Finite results that leave the 64 bit range saturate to
the infinity of their sign, unless the operation is one that refuses them (`scale?`, `add?`).

* `le_iff`, `lt_iff`: the order puts `negInf` below and `posInf` above every finite value.
* `add`: a left infinity absorbs whatever is added to it.
-/

namespace ThresholdEncoding

/-- An integer or one of the two infinities. -/
inductive Extended where
  /-- Below every integer. -/
  | negInf
  /-- An integer. -/
  | fin (n : Int)
  /-- Above every integer. -/
  | posInf
  deriving DecidableEq, Repr, Inhabited

namespace Extended

instance : Coe Int Extended := ⟨fin⟩

instance : ToString Extended where
  toString
    | negInf => "-inf"
    | fin n => toString n
    | posInf => "inf"

/-! ### Order -/

/-- The order that extends the one of the integers. -/
protected def le : Extended → Extended → Prop
  | negInf, _ => True
  | _, posInf => True
  | fin a, fin b => a ≤ b
  | _, _ => False

instance : LE Extended := ⟨Extended.le⟩

instance : LT Extended := ⟨fun a b => ¬ b ≤ a⟩

instance decidableLe : (a b : Extended) → Decidable (a ≤ b)
  | negInf, _ => isTrue (by simp [LE.le, Extended.le])
  | fin a, fin b => inferInstanceAs (Decidable (a ≤ b))
  | fin _, negInf => isFalse (by simp [LE.le, Extended.le])
  | fin _, posInf => isTrue trivial
  | posInf, posInf => isTrue trivial
  | posInf, negInf => isFalse (by simp [LE.le, Extended.le])
  | posInf, fin _ => isFalse (by simp [LE.le, Extended.le])

instance decidableLt (a b : Extended) : Decidable (a < b) := inferInstanceAs (Decidable (¬ b ≤ a))

/-- How two extended integers compare. -/
protected def compare (a b : Extended) : Ordering :=
  if a < b then .lt else if a = b then .eq else .gt

instance : Ord Extended := ⟨Extended.compare⟩

variable {a b : Extended} {m n : Int}

@[simp] theorem fin_le_fin : fin m ≤ fin n ↔ m ≤ n := Iff.rfl

@[simp] theorem negInf_le : negInf ≤ a := by cases a <;> trivial

@[simp] theorem le_posInf : a ≤ posInf := by cases a <;> trivial

@[simp] theorem not_posInf_le_fin : ¬ posInf ≤ fin n := fun h => h

@[simp] theorem not_fin_le_negInf : ¬ fin n ≤ negInf := fun h => h

@[simp] theorem not_posInf_le_negInf : ¬ posInf ≤ negInf := fun h => h

theorem lt_iff : a < b ↔ ¬ b ≤ a := Iff.rfl

@[simp] theorem fin_lt_fin : fin m < fin n ↔ m < n := by simp [lt_iff]

/-! ### Finite values -/

/-- Whether the value is an integer. -/
def isFinite : Extended → Bool
  | fin _ => true
  | _ => false

/-- The integer, if the value is one. -/
def finite? : Extended → Option Int
  | fin n => some n
  | _ => none

@[simp] theorem finite?_eq_some_iff : a.finite? = some n ↔ a = fin n := by
  cases a <;> simp [finite?]

@[simp] theorem isFinite_fin : (fin n).isFinite = true := rfl

theorem isFinite_iff : a.isFinite = true ↔ ∃ n, a = fin n := by
  cases a <;> simp [isFinite]

/-! ### Arithmetic -/

/-- The number itself if it fits the 64 bit range, else the infinity of its sign. -/
def saturate (n : Int) : Extended :=
  if n < Word.least then negInf else if Word.greatest < n then posInf else fin n

/-- Infinities change sides, finite values change sign. -/
protected def neg : Extended → Extended
  | negInf => posInf
  | fin n => fin (-n)
  | posInf => negInf

instance : Neg Extended := ⟨Extended.neg⟩

/-- The product with a nonzero factor, saturating. Infinities flip with the sign of the factor. -/
def scale : Extended → Int → Extended
  | fin n, f => saturate (n * f)
  | x, f => if 0 < f then x else -x

/-- The product with a nonzero factor, refused if a finite product does not fit. -/
def scale? : Extended → Int → Option Extended
  | fin n, f => (Word.check? (n * f)).map fin
  | x, f => some (if 0 < f then x else -x)

/-- The sum, saturating. Of opposite infinities the left one wins; a checked build panics on them. -/
protected def add : Extended → Extended → Extended
  | fin m, fin n => saturate (m + n)
  | fin _, y => y
  | x, _ => x

instance : Add Extended := ⟨Extended.add⟩

/-- The sum, refused if a finite sum does not fit. -/
def add? : Extended → Extended → Option Extended
  | fin m, fin n => (Word.check? (m + n)).map fin
  | x, y => some (x + y)

/-- The sum of a list from the left, starting at `0` and saturating at every step. -/
def sum (l : List Extended) : Extended := l.foldl (· + ·) (fin 0)

theorem saturate_of_fits (h : Word.Fits n) : saturate n = fin n := by
  unfold saturate; rw [if_neg (by have := h.1; omega), if_neg (by have := h.2; omega)]

@[simp] theorem neg_negInf : -negInf = posInf := rfl

@[simp] theorem neg_posInf : -posInf = negInf := rfl

@[simp] theorem neg_fin : -fin n = fin (-n) := rfl

@[simp] theorem fin_add_fin : fin m + fin n = saturate (m + n) := rfl

@[simp] theorem scale_fin {f : Int} : (fin n).scale f = saturate (n * f) := rfl

end Extended

end ThresholdEncoding
