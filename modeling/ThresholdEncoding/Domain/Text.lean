import ThresholdEncoding.Domain.Basic

/-!
# The text of a domain

A small domain is written as the list of its values. Of a large one the text shows the first and the
last few values and their number, of one without a size nothing.
-/

namespace ThresholdEncoding.Domain

/-- The number of values up to which all are written. -/
def listingLimit : Nat := 20

/-- The number of values written at each end of a larger domain. -/
def excerptLength : Nat := 5

/-- Values in brackets. -/
def listing (l : List Int) : String := "[" ++ ", ".intercalate (l.map toString) ++ "]"

instance : ToString Domain where
  toString d :=
    match d.size? with
    | none => "[...]"
    | some n =>
      if n ≤ listingLimit then listing (d.valuesFrom .ascending 0)
      else
        let first := (List.range excerptLength).filterMap d.ascending?
        let last := (List.range excerptLength).reverse.filterMap d.descending?
        listing first ++ " ... " ++ listing last ++ " # " ++ toString n

end ThresholdEncoding.Domain
