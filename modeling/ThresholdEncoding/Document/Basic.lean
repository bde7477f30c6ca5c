import ThresholdEncoding.Word

/-!
# Documents

A `Document` is a tree of numbers, texts, lists and records of named fields, as it is stored in
files. A type is `Storable` if its values can be written as documents and read back. A structure is
a record with a field for each of its components, and a type with several constructors is the name
of a constructor, or a record with the one field that has this name.

Reading ignores fields that are not asked for. A missing field counts as `null`, but only where the
value may be missing.
-/

namespace ThresholdEncoding

/-- A tree of stored data. -/
inductive Document where
  /-- No value. -/
  | null
  /-- A truth value. -/
  | bool (b : Bool)
  /-- The number `mantissa / 10 ^ places`. -/
  | number (mantissa : Int) (places : Nat)
  /-- A text. -/
  | text (s : String)
  /-- A list. -/
  | list (l : List Document)
  /-- Named fields. -/
  | fields (l : List (String × Document))
  deriving Inhabited, Repr

namespace Document

/-- An integer. -/
def integer (n : Int) : Document := number n 0

/-- The integer that a document is, if it is written without decimal places and fits. -/
def integer? : Document → Option Int
  | number n 0 => Word.check? n
  | _ => none

/-- The natural number below a limit that a document is. -/
def index? (limit : Nat) : Document → Option Nat
  | number (.ofNat n) 0 => if n < limit then some n else none
  | _ => none

/-- The field of a record with a given name. -/
def field? (name : String) : Document → Option Document
  | fields l => l.lookup name
  | _ => none

/-- A constructor with its argument. -/
def tagged (name : String) (d : Document) : Document := fields [(name, d)]

/-- The constructor and the argument of a record with one field. -/
def tagged? : Document → Option (String × Document)
  | fields [f] => some f
  | _ => none

end Document

/-- Types whose values can be stored. -/
class Storable (α : Type) where
  /-- The document of a value. -/
  write : α → Document
  /-- The value of a document, if it has one. -/
  read? : Document → Option α

namespace Storable

variable {α β : Type}

/-- The value of a field, which must be there. -/
def readField? (α : Type) [Storable α] (name : String) (d : Document) : Option α :=
  (d.field? name).bind read?

/-- The value of a field that may be missing. -/
def readOptional? (α : Type) [Storable α] (name : String) (d : Document) : Option (Option α) :=
  match d.field? name with
  | none | some .null => some none
  | some v => (read? v).map some

/-- The document of a value that may be missing. -/
def writeOptional [Storable α] : Option α → Document
  | some a => write a
  | none => .null

instance : Storable Bool where
  write := .bool
  read?
    | .bool b => some b
    | _ => none

instance : Storable Int where
  write := .integer
  read? := Document.integer?

instance : Storable String where
  write := .text
  read?
    | .text s => some s
    | _ => none

instance [Storable α] : Storable (List α) where
  write l := .list (l.map write)
  read?
    | .list l => l.mapM read?
    | _ => none

instance [Storable α] [Storable β] : Storable (α × β) where
  write p := .list [write p.1, write p.2]
  read?
    | .list [a, b] => do return (← read? a, ← read? b)
    | _ => none

end Storable

end ThresholdEncoding
