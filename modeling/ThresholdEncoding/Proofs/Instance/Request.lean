import ThresholdEncoding.Proofs.Instance.Steps

/-!
# Reachable instances

An instance comes from an empty one or from a record by requests, any of which may have failed. All
such instances are sound: whatever a request does, it only adds valid domains and constraints over
declared variables.

* `Request`, `Request.perform`: what can be asked of an instance.
* `Request.proceeds`: requests take steps, whether they succeed or not.
* `Instance.Reachable`, `Reachable.sound`: the instances that can arise.
* `atLeast_split_correct`: splitting keeps the meaning of a constraint.
-/

namespace ThresholdEncoding

/-- What can be asked of an instance. -/
inductive Request where
  | declareInt (d : Domain)
  | declareBool
  | atLeast (terms : List Term) (bound : Int)
  | atLeastReified (terms : List Term) (bound : Int) (r : Reification)
  | atMost (terms : List Term) (bound : Int)
  | atMostReified (terms : List Term) (bound : Int) (r : Reification)
  | greater (terms : List Term) (bound : Int)
  | less (terms : List Term) (bound : Int)
  | equal (terms : List Term) (bound : Int)
  | different (terms : List Term) (bound : Int)
  | allDifferent (xs : List IntVar)
  | link (boolean : BoolAtom) (int : IntVar)
  | clause (lits : BoolClause)
  | objectiveTerm (t : Term)
  | giveName (name : String)
  | assumeUnbounded
  | chooseStrategy (s : Strategy)
  deriving DecidableEq, Repr

/-- A computation whose answer is not needed. -/
def Build.forget {α : Type} (x : Build α) : Build Unit := x >>= fun _ => pure ()

theorem Build.after_forget {α : Type} {x : Build α} {i : Instance} :
    x.forget.after i = x.after i := by
  unfold forget
  rw [after_bind]
  cases x.result i <;> rfl

theorem Build.yields_forget_iff {α : Type} {x : Build α} {i j : Instance} :
    x.forget.Yields i () j ↔ ∃ a, x.Yields i a j := by
  unfold forget
  rw [yields_bind_iff]
  simp

namespace Request

/-- Carries out a request. -/
def perform : Request → Build Unit
  | declareInt d => (Build.addInt d false).forget
  | declareBool => (Build.addBool false).forget
  | atLeast ts b => (Build.atLeast ts b).forget
  | atLeastReified ts b r => (Build.atLeastReified ts b r).forget
  | atMost ts b => (Build.atMost ts b).forget
  | atMostReified ts b r => (Build.atMostReified ts b r).forget
  | greater ts b => (Build.greater ts b).forget
  | less ts b => (Build.less ts b).forget
  | equal ts b => (Build.equal ts b).forget
  | different ts b => (Build.different ts b).forget
  | allDifferent xs => (Build.allDifferent xs).forget
  | link b x => (Build.link b x).forget
  | clause lits => (Build.clause lits).forget
  | objectiveTerm t => Build.objectiveTerm t
  | giveName name => Build.giveName name
  | assumeUnbounded => Build.assumeUnbounded
  | chooseStrategy s => Build.chooseStrategy s

/-- All numbers of a request are in range, and its domain comes from the constructors. -/
def Fits : Request → Prop
  | declareInt d => d.WellFormed
  | atLeast ts b | atLeastReified ts b _ | atMost ts b | atMostReified ts b _ | greater ts b
  | less ts b | equal ts b | different ts b => (∀ t ∈ ts, Word.Fits t.weight) ∧ Word.Fits b
  | objectiveTerm t => Word.Fits t.weight
  | declareBool | allDifferent _ | link _ _ | clause _ | giveName _ | assumeUnbounded
  | chooseStrategy _ => True

end Request

namespace Instance

/-- All numbers of a record are in range, and its domains come from the constructors. -/
structure Record.Fits (r : Record) : Prop where
  domains : ∀ p ∈ r.domains, p.2.WellFormed
  constraints : ∀ c ∈ r.constraints, (∀ t ∈ c.terms, Word.Fits t.weight) ∧ Word.Fits c.bound
  objective : ∀ t ∈ r.objective.terms, Word.Fits t.weight

/-- The instances that can arise. Requests may fail on the way. -/
inductive Reachable : Instance → Prop where
  | empty (options : InstanceOptions) : Reachable { options }
  | restored {r : Record} {i : Instance} (fits : r.Fits) (h : r.toInstance = .ok i) : Reachable i
  | request {r : Request} {i : Instance} (fits : r.Fits) (h : Reachable i) :
    Reachable (r.perform.after i)

end Instance

/-! ### Reachable instances -/

namespace Request

open Build

variable {r : Request} {i : Instance} {x : Build Nat}

/-- The computation of a request for a constraint. Its answer is a position. -/
def adding? : Request → Option (Build Nat)
  | atLeast ts b => some (Build.atLeast ts b)
  | atLeastReified ts b r => some (Build.atLeastReified ts b r)
  | atMost ts b => some (Build.atMost ts b)
  | atMostReified ts b r => some (Build.atMostReified ts b r)
  | greater ts b => some (Build.greater ts b)
  | less ts b => some (Build.less ts b)
  | equal ts b => some (Build.equal ts b)
  | different ts b => some (Build.different ts b)
  | allDifferent xs => some (Build.allDifferent xs)
  | _ => none

theorem perform_of_adding? (h : r.adding? = some x) : r.perform = x.forget := by
  cases r <;> cases h <;> rfl

/-- **A request for a constraint takes steps**, and a position that is answered is the last one. -/
theorem proceeds_adding (hi : i.Sound) (h : r.adding? = some x) : x.Proceeds i Instance.Last := by
  cases r <;> cases h
  case atLeast ts b => exact proceeds_atLeast hi ts b
  case atLeastReified ts b r => exact proceeds_atLeastReified hi ts b r
  case atMost ts b => exact proceeds_atMost hi ts b
  case atMostReified ts b r => exact proceeds_atMostReified hi ts b r
  case greater ts b => exact proceeds_greater hi ts b
  case less ts b => exact proceeds_less hi ts b
  case equal ts b => exact proceeds_equal hi ts b
  case different ts b => exact proceeds_different hi ts b
  case allDifferent xs => exact proceeds_allDifferent hi xs

/-- **A request takes steps**, whether it succeeds or not. -/
theorem proceeds (hi : i.Sound) (hr : r.Fits) : r.perform.Proceeds i fun _ _ => True := by
  cases hx : r.adding? with
  | some x =>
    rw [perform_of_adding? hx]
    exact (proceeds_adding hi hx).discard
  | none =>
    cases r with
    | declareInt d => exact (proceeds_addInt hr false).discard
    | declareBool => exact (proceeds_addBool false).discard
    | link b x => exact (proceeds_link b x).discard
    | clause lits => exact (proceeds_clause lits).discard
    | objectiveTerm t => exact proceeds_objectiveTerm t
    | giveName name => exact proceeds_modify (.rename name)
    | assumeUnbounded => exact proceeds_modify .assumeUnbounded
    | chooseStrategy s => exact proceeds_modify (.chooseStrategy s)
    | _ => cases hx

end Request

/-- Adds `terms ≥ bound`, reified or not. -/
def Build.atLeastOr (ts : List Term) (bound : Int) : Option Reification → Build Nat
  | none => Build.atLeast ts bound
  | some r => Build.atLeastReified ts bound r

namespace Instance

variable {i k : Instance} {ts : List Term} {bound : Int} {r : Option Reification} {a : Nat}

theorem sound_empty (options : InstanceOptions) : Sound { options } where
  domains := fun x d h => by simp [VariableTable.domain?] at h
  constraints := by simp

theorem Record.toInstance_eq {r : Record} : r.toInstance =
    ((Build.restore r).result {}).map fun _ => (Build.restore r).after {} := rfl

/-- **Reachable instances are sound.** -/
theorem Reachable.sound (h : i.Reachable) : i.Sound := by
  induction h with
  | empty options => exact sound_empty options
  | @restored r i fits h =>
    rw [Record.toInstance_eq, Except.map_eq_ok_iff] at h
    obtain ⟨-, -, rfl⟩ := h
    exact (Build.proceeds_restore fits.domains).steps.sound (sound_empty {})
  | request fits _ ih => exact (Request.proceeds ih fits).steps.sound ih

/-! ### Splitting -/

theorem yields_atLeastOr (h : (Build.atLeastOr ts bound r).Yields i a k) :
    i.table.Declares ⟨ts, bound, r⟩ ∧ (Build.pushAtLeast ts bound r).Yields i a k := by
  cases r with
  | none =>
    obtain ⟨hts, h⟩ := Build.yields_atLeast_iff.mp h
    exact ⟨⟨hts, by simp⟩, h⟩
  | some r =>
    obtain ⟨hts, hr, h⟩ := Build.yields_atLeastReified_iff.mp h
    exact ⟨⟨hts, by simpa using hr⟩, h⟩

/-- **Splitting keeps the meaning of a constraint.** Over closed domains, a valuation of the old
variables satisfies the constraint just when the introduced variables can be given values of their
domains under which all appended constraints hold. These are short, and the last one, whose position
is the answer, carries the reification. -/
theorem atLeast_split_correct (hi : i.Reachable) (hc : i.table.Closed)
    (hs : i.options.splitting ≠ .keep) (hlen : termLimit < ts.length)
    (h : (Build.atLeastOr ts bound r).Yields i a k) :
    i.table.Extends k.table ∧
    (∀ x, k.table.declaresInt x = true → i.table.declaresInt x = true ∨ x.introduced = true) ∧
    ∃ cs c, k.constraints = i.constraints ++ (cs ++ [c]) ∧
      (∀ ν, i.table.Admits ν → (bound ≤ ν.sum ts ∨ (∃ l, r = some l ∧ ν.lit l.lit = true) ↔
        ∃ μ, i.table.Agree ν μ ∧ k.table.Admits μ ∧ ∀ c' ∈ cs ++ [c], c'.Holds μ)) ∧
      (∀ c' ∈ cs ++ [c], c'.terms.length ≤ termLimit) ∧ (∀ c' ∈ cs, c'.reification = none) ∧
      c.reification = r ∧ a = i.constraints.length + cs.length := by
  obtain ⟨hdecl, h⟩ := yields_atLeastOr h
  have hred := Build.pushAtLeast_reduces hi.sound hdecl h
  have hk : ¬ i.Keeps ts := fun hk => hk.elim (fun h => by omega) hs
  obtain ⟨j, us, ⟨cs, hj, hcs⟩, hus, rfl, rfl⟩ := Build.pushAtLeast_short hk h
  have hadded : i.added (j.push ⟨us, bound, r⟩) = cs ++ [⟨us, bound, r⟩] := by
    unfold added push
    simp [hj]
  refine ⟨hred.extends_.table, fun x hx => ?_, cs, ⟨us, bound, r⟩, ?_, fun ν hν => ?_, ?_, ?_, rfl,
    ?_⟩
  · cases hx' : x.introduced with
    | true => exact Or.inr rfl
    | false => exact Or.inl (hred.givenInt x hx' hx)
  · rw [← hadded, hred.extends_.added_eq]
  · refine (hred.expresses hc ν hν).trans (exists_congr fun μ => ?_)
    rw [hadded, and_true]
  · intro c hcm
    rcases List.mem_append.mp hcm with h' | h'
    · exact (hcs c h').2
    · rw [List.mem_singleton.mp h']; exact hus
  · exact fun c hcm => (hcs c hcm).1
  · rw [hj, List.length_append]

/-- An instance with given variables of one domain. -/
def uniform (s : Splitting) (d : Domain) : Nat → Instance
  | 0 => { options := ⟨s⟩ }
  | n + 1 => (Request.declareInt d).perform.after (uniform s d n)

theorem reachable_uniform {s : Splitting} {d : Domain} (hd : d.WellFormed) (n : Nat) :
    (uniform s d n).Reachable := by
  induction n with
  | zero => exact .empty ⟨s⟩
  | succ n ih => exact .request (r := .declareInt d) hd ih

/-- The terms `x₁ - 2 * x₂ + x₃ + x₃`. -/
def fourTerms : List Term :=
  [⟨⟨0, false⟩, 1⟩, ⟨⟨1, false⟩, -2⟩, ⟨⟨2, false⟩, 1⟩, ⟨⟨2, false⟩, 1⟩]

/-- The terms `x₁ - x₂ + x₃ + x₃`. -/
def unitTerms : List Term :=
  [⟨⟨0, false⟩, 1⟩, ⟨⟨1, false⟩, -1⟩, ⟨⟨2, false⟩, 1⟩, ⟨⟨2, false⟩, 1⟩]

/-- An exact sum takes two constraints before the last one; estimates take one for each term. -/
theorem atLeast_split_correct_four :
    (let i := uniform .exactSums (.interval (.fin 0) (.fin 5)) 3
    ∃ k, (Build.atLeastOr fourTerms 7 none).Yields i 2 k ∧ ∃ cs c, k.constraints = cs ++ [c] ∧
      ∀ ν, i.table.Admits ν → (7 ≤ ν.sum fourTerms ↔
        ∃ μ, i.table.Agree ν μ ∧ k.table.Admits μ ∧ ∀ c' ∈ cs ++ [c], c'.Holds μ)) ∧
    (let i := uniform .estimates (.interval (.fin 0) (.fin 5)) 3
    ∃ k, (Build.atLeastOr unitTerms 7 none).Yields i 4 k ∧ ∃ cs c, k.constraints = cs ++ [c] ∧
      ∀ ν, i.table.Admits ν → (7 ≤ ν.sum unitTerms ↔
        ∃ μ, i.table.Agree ν μ ∧ k.table.Admits μ ∧ ∀ c' ∈ cs ++ [c], c'.Holds μ)) := by
  constructor
  · intro i
    have hc : i.table.Closed := VariableTable.closed_of_forall (by decide)
    have h : (Build.atLeastOr fourTerms 7 none).Yields i 2
      ((Build.atLeastOr fourTerms 7 none).after i) := ⟨rfl, rfl⟩
    obtain ⟨-, -, cs, c, hk, hiff, -⟩ := atLeast_split_correct
      (reachable_uniform (by decide) 3) hc (by decide) (by decide) h
    exact ⟨_, h, cs, c, hk, by simpa using hiff⟩
  · intro i
    have hc : i.table.Closed := VariableTable.closed_of_forall (by decide)
    have h : (Build.atLeastOr unitTerms 7 none).Yields i 4
      ((Build.atLeastOr unitTerms 7 none).after i) := ⟨by decide +kernel, rfl⟩
    obtain ⟨-, -, cs, c, hk, hiff, -⟩ := atLeast_split_correct
      (reachable_uniform (by decide) 3) hc (by decide) (by decide) h
    exact ⟨_, h, cs, c, hk, by simpa using hiff⟩

end Instance

end ThresholdEncoding
