import ThresholdEncoding.Document.Basic
import ThresholdEncoding.Domain.Record

/-!
# Documents of domains

A domain is stored as the list of the name of its form and its data. An argument is told from its
document alone: an integer or the text of an infinity is a bound, a list holds values, and a record
with the name of a kind of function is that function.
-/

namespace ThresholdEncoding

open Storable

/-- The number of exponents of powers that documents can hold. -/
def exponentLimit : Nat := 4294967296

instance : Storable Extended where
  write
    | .negInf => .text "-inf"
    | .fin n => write n
    | .posInf => .text "inf"
  read?
    | .text "inf" => some .posInf
    | .text "+inf" => some .posInf
    | .text "-inf" => some .negInf
    | d => d.integer?.map .fin

instance : Storable MonotoneFn where
  write
    | .affine s o => .tagged "Affine" (.fields [("slope", write s), ("offset", write o)])
    | .power e c => .tagged "Power" (.fields [("exponent", .integer e), ("coefficient", write c)])
    | .exponential b c =>
      .tagged "Exponential" (.fields [("base", write b), ("coefficient", write c)])
  read? d := do
    match ← d.tagged? with
    | ("Affine", d) => return .affine (← readField? Int "slope" d) (← readField? Int "offset" d)
    | ("Power", d) =>
      return .power (← (d.field? "exponent").bind (Document.index? exponentLimit))
        (← readField? Int "coefficient" d)
    | ("Exponential", d) =>
      return .exponential (← readField? Int "base" d) (← readField? Int "coefficient" d)
    | _ => none

instance : Storable DomainArgument where
  write
    | .bound n => write n
    | .function f => write f
    | .values l => write l
  read? d :=
    (read? d).map .bound <|> (read? d).map .function <|> (read? d).map .values

instance : Storable Domain.Record where
  write r := .list [write r.tag, write r.arguments]
  read?
    | .list [tag, arguments] => do return ⟨← read? tag, ← read? arguments⟩
    | _ => none

/-- A domain is stored as its record, and has to be valid when it is read. -/
instance : Storable Domain where
  write d := write d.toRecord
  read? d := do (← (read? d : Option Domain.Record)).toDomain.toOption

end ThresholdEncoding
