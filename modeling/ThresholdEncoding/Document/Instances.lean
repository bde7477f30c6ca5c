import ThresholdEncoding.Document.Constraints
import ThresholdEncoding.Document.Domains
import ThresholdEncoding.Instance.Record

/-!
# Documents of instances
-/

namespace ThresholdEncoding

open Storable

instance : Storable Instance.Record where
  write r := .fields
    [("name", writeOptional r.name), ("domains", write r.domains), ("bools", write r.bools),
      ("constraints", write r.constraints), ("clauses", write r.clauses), ("links", write r.links),
      ("objective", write r.objective), ("unbounded", write r.unbounded)]
  read? d := do
    return {
      name := ← readOptional? String "name" d
      domains := ← readField? (List (IntVar × Domain)) "domains" d
      bools := ← readField? (List BoolVar) "bools" d
      constraints := ← readField? (List LinearConstraint) "constraints" d
      clauses := ← readField? (List BoolClause) "clauses" d
      links := ← readField? (List Link) "links" d
      objective := ← readField? Objective "objective" d
      unbounded := ← readField? Bool "unbounded" d }

end ThresholdEncoding
