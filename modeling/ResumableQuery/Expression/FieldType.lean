import ResumableQuery.Wire

/-!
# Types

The type of a value that flows through a plan: unknown, one of the kinds of tuple elements, a record
with typed fields, or an array.
-/

namespace ResumableQuery

/-- The type of a value. -/
inductive FieldType where
  | any
  | null
  | bool
  | int
  | float
  | text
  | bytes
  | record (fields : List (String × FieldType))
  | array (element : FieldType)
  deriving Repr, Inhabited

namespace FieldType

mutual

/-- Whether two types are the same. -/
def same : FieldType → FieldType → Bool
  | any, any => true
  | null, null => true
  | bool, bool => true
  | int, int => true
  | float, float => true
  | text, text => true
  | bytes, bytes => true
  | record as, record bs => sameFields as bs
  | array a, array b => same a b
  | _, _ => false

/-- Whether two lists hold the same fields. -/
def sameFields : List (String × FieldType) → List (String × FieldType) → Bool
  | [], [] => true
  | (m, a) :: as, (n, b) :: bs => m == n && same a b && sameFields as bs
  | _, _ => false

end

mutual

theorem same_iff (a b : FieldType) : a.same b = true ↔ a = b := by
  cases a with
  | record xs => cases b <;> simp [same, sameFields_iff xs]
  | array x => cases b <;> simp [same, same_iff x]
  | _ => cases b <;> simp [same]

theorem sameFields_iff (a b : List (String × FieldType)) : sameFields a b = true ↔ a = b := by
  match a, b with
  | [], [] => simp [sameFields]
  | [], _ :: _ => simp [sameFields]
  | _ :: _, [] => simp [sameFields]
  | (m, x) :: xs, (n, y) :: ys =>
    simp [sameFields, same_iff x y, sameFields_iff xs ys]

end

instance : DecidableEq FieldType := fun a b => decidable_of_iff _ (same_iff a b)

/-- The type of a field, if values of the type can have one: a field of an unknown type is itself
unknown, and of several fields of one name the first counts. -/
def field? (name : String) : FieldType → Option FieldType
  | any => some any
  | record fields => (fields.find? (·.1 == name)).map (·.2)
  | _ => none

/-- Whether this is a record type. -/
def isRecord : FieldType → Bool
  | record _ => true
  | _ => false

mutual

/-- The type as a reader sees it. -/
def display : FieldType → String
  | any => "any"
  | null => "null"
  | bool => "bool"
  | int => "int"
  | float => "float"
  | text => "string"
  | bytes => "bytes"
  | record fields => "record(" ++ ", ".intercalate (displayFields fields) ++ ")"
  | array element => "array<" ++ element.display ++ ">"

/-- Typed fields as a reader sees them. -/
def displayFields : List (String × FieldType) → List String
  | [] => []
  | (name, t) :: rest => (name ++ ": " ++ t.display) :: displayFields rest

end

/-- The type of a name that stands for itself. -/
def plain? (name : String) : Option FieldType :=
  [any, null, bool, int, float, text, bytes].find? (·.display == name)

mutual

/-- The wire form. -/
def toWire : FieldType → Bytes
  | any => Wire.word32 0
  | null => Wire.word32 1
  | bool => Wire.word32 2
  | int => Wire.word32 3
  | float => Wire.word32 4
  | text => Wire.word32 5
  | bytes => Wire.word32 6
  | record fields => Wire.word32 7 ++ (Wire.word64 fields.length ++ fieldsToWire fields)
  | array element => Wire.word32 8 ++ element.toWire

/-- The wire form of typed fields. -/
def fieldsToWire : List (String × FieldType) → Bytes
  | [] => []
  | (name, t) :: rest => Wire.text name ++ t.toWire ++ fieldsToWire rest

end

/-- Reads a name and the type under it. -/
def readNamed (read : Wire.Reader FieldType) : Wire.Reader (String × FieldType) := do
  return (← Wire.readText, ← read)

/-- Reads a type whose nesting is less deep than `depth`. -/
def readNested : (depth : Nat) → Wire.Reader FieldType
  | 0 => Wire.fail .endOfInput
  | depth + 1 => do
    match ← Wire.readVariant 9 with
    | 0 => return any
    | 1 => return null
    | 2 => return bool
    | 3 => return int
    | 4 => return float
    | 5 => return text
    | 6 => return bytes
    | 7 => return record (← Wire.readList (readNamed (readNested depth)))
    | _ => return array (← readNested depth)

/-- Reads a type. -/
def ofWire : Wire.Reader FieldType := fun b => readNested (b.length + 1) b

end FieldType

end ResumableQuery
