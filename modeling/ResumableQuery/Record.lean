import ResumableQuery.Ordered
import ResumableQuery.Tuple.Basic

/-!
# Records

A record has a type, a primary key and named fields.  A field holds a single value, a nested message
with fields of its own, or a list of field values.  Fields are kept in order of their names.
-/

namespace ResumableQuery

/-- What a field of a record holds. -/
inductive FieldValue where
  | scalar (v : TupleValue)
  | message (fields : List (String × FieldValue))
  | repeated (items : List FieldValue)
  deriving Inhabited

/-- Named field values in order of their names. -/
abbrev Fields := List (String × FieldValue)

/-- A stored record. -/
structure Record where
  recordType : String
  primaryKey : Tuple
  fields : Fields
  deriving Inhabited

namespace FieldValue

/-- The value of a field that holds a single one. -/
def asScalar : FieldValue → Option TupleValue
  | scalar v => some v
  | _ => none

/-- The text of a field that holds a single text. -/
def asText (f : FieldValue) : Option String := f.asScalar.bind TupleValue.asText

/-- The fields of a nested message. -/
def asMessage : FieldValue → Option Fields
  | message fields => some fields
  | _ => none

mutual

/-- The wire form of a field value. -/
def toWire : FieldValue → Bytes
  | scalar v => Wire.word32 0 ++ v.toWire
  | message fields => Wire.word32 1 ++ (Wire.word64 fields.length ++ fieldsToWire fields)
  | repeated items => Wire.word32 2 ++ (Wire.word64 items.length ++ itemsToWire items)

/-- The wire form of named field values. -/
def fieldsToWire : List (String × FieldValue) → Bytes
  | [] => []
  | (name, f) :: rest => Wire.text name ++ f.toWire ++ fieldsToWire rest

/-- The wire form of a list of field values. -/
def itemsToWire : List FieldValue → Bytes
  | [] => []
  | f :: rest => f.toWire ++ itemsToWire rest

end

/-- Reads a name and the field value under it. -/
def readNamed (read : Wire.Reader FieldValue) : Wire.Reader (String × FieldValue) := do
  return (← Wire.readText, ← read)

/-- Reads a field value whose nesting is less deep than `depth`.  Names may come in any order, and
the last of several fields of one name counts. -/
def readNested : (depth : Nat) → Wire.Reader FieldValue
  | 0 => Wire.fail .endOfInput
  | depth + 1 => do
    match ← Wire.readVariant 3 with
    | 0 => return scalar (← TupleValue.ofWire)
    | 1 => return message (Ordered.ofList (← Wire.readList (readNamed (readNested depth))))
    | _ => return repeated (← Wire.readList (readNested depth))

/-- Reads a field value.  Each level of nesting takes twelve bytes, so the length of the input is
depth enough. -/
def ofWire : Wire.Reader FieldValue := fun b => readNested (b.length + 1) b

end FieldValue

namespace Record

/-- The value of a field. -/
def field? (r : Record) (name : String) : Option FieldValue := Ordered.find? name r.fields

/-- The record as a reader sees it. -/
def display (r : Record) : String := r.recordType ++ r.primaryKey.display

/-- The wire form. -/
def toWire (r : Record) : Bytes :=
  Wire.text r.recordType ++ r.primaryKey.toWire ++
    (Wire.word64 r.fields.length ++ FieldValue.fieldsToWire r.fields)

/-- Reads a record. -/
def ofWire : Wire.Reader Record := do
  let recordType ← Wire.readText
  let primaryKey ← Tuple.ofWire
  let fields ← Wire.readList (FieldValue.readNamed FieldValue.ofWire)
  return ⟨recordType, primaryKey, Ordered.ofList fields⟩

end Record

end ResumableQuery
