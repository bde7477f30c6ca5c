import ThresholdEncoding.Binary64.Text
import ThresholdEncoding.Instance.Basic

/-!
# Statistics of an instance
-/

namespace ThresholdEncoding

/-- The average and the median of a list of sizes. -/
structure Averages where
  /-- The average. -/
  mean : Binary64
  /-- The element in the middle, of two the larger one. -/
  median : Nat
  deriving DecidableEq, Repr

/-- The average and the median of a list of sizes, unless it is empty. -/
def Averages.of? (l : List Nat) : Option Averages :=
  (l.mergeSort[l.length / 2]?).map fun median => ⟨.quotient (l.foldl (· + ·) 0) l.length, median⟩

/-- The sizes of the parts of an instance. -/
structure Statistics where
  /-- The number of integer variables. -/
  ints : Nat
  /-- The number of introduced integer variables. -/
  introducedInts : Nat
  /-- The number of boolean variables. -/
  bools : Nat
  /-- Whether some domain is known to have an open bound. -/
  unbounded : Bool
  /-- The number of linear constraints. -/
  constraints : Nat
  /-- The average number of terms of a constraint. -/
  meanLength : Binary64
  /-- The greatest number of terms of a constraint. -/
  maxLength : Nat
  /-- The median of the numbers of terms. -/
  medianLength : Nat
  /-- The average and median size of the domains, if all have one and there are any. -/
  domainSizes : Option Averages
  /-- The number of clauses. -/
  clauses : Nat
  /-- The number of links. -/
  links : Nat
  /-- The number of terms of the objective. -/
  objectiveTerms : Nat
  deriving DecidableEq, Repr

namespace Instance

/-- The sizes of the parts of the instance. -/
def statistics (i : Instance) : Statistics :=
  let lengths := i.constraints.map (·.terms.length)
  let averages := Averages.of? lengths
  { ints := i.table.ints.length
    introducedInts := i.table.ints.countP (·.introduced)
    bools := i.table.bools.length
    unbounded := i.unbounded
    constraints := i.constraints.length
    meanLength := (averages.map (·.mean)).getD (.ofNat 0)
    maxLength := lengths.max?.getD 0
    medianLength := (averages.map (·.median)).getD 0
    domainSizes := (i.table.ints.mapM fun (e : IntDeclaration) => e.domain.size?).bind Averages.of?
    clauses := i.clauses.length
    links := i.links.length
    objectiveTerms := i.objective.terms.length }

/-- The lines of a summary. -/
def summary (i : Instance) : List String :=
  let s := i.statistics
  let domainLines := match s.domainSizes with
    | some a =>
      ["  avg domain size: " ++ a.mean.fixed 2, "  median domain size: " ++ toString a.median]
    | none => []
  ["instance " ++ i.name.getD "<unnamed>",
    "int variables: " ++ toString s.ints ++ " (" ++ toString s.introducedInts ++ " internal)"] ++
  domainLines ++
  ["bool variables: " ++ toString s.bools,
    "unbounded domains: " ++ (if s.unbounded then "y" else "n"),
    "int constraints: " ++ toString s.constraints,
    "  avg len: " ++ s.meanLength.fixed 2,
    "  max len: " ++ toString s.maxLength,
    "  median len: " ++ toString s.medianLength,
    "clauses: " ++ toString s.clauses,
    "bool to int: " ++ toString s.links,
    "opt vector: " ++ toString s.objectiveTerms]

/-- Reports the summary. -/
def logSummary (i : Instance) : Logged Unit := ⟨i.summary.map .summary, ()⟩

end Instance

end ThresholdEncoding
