import ResumableQuery.Tuple.Basic

/-!
# Index entries

An index scan hands out entries: a key and a value of the named index, and the primary key of the
record that the entry stands for, where there is one.
-/

namespace ResumableQuery

/-- A single result of an index scan. -/
structure IndexEntry where
  indexName : String
  key : Tuple
  value : Tuple
  primaryKey : Option Tuple
  deriving DecidableEq, Repr

namespace IndexEntry

/-- The entry as a reader sees it. -/
def display (e : IndexEntry) : String :=
  let primary :=
    match e.primaryKey with
    | some pk => " pk " ++ pk.display
    | none => ""
  "IndexEntry(" ++ e.indexName ++ " " ++ e.key.display ++ " => " ++ e.value.display ++ primary ++
    ")"

/-- The wire form. -/
def toWire (e : IndexEntry) : Bytes :=
  Wire.text e.indexName ++ e.key.toWire ++ e.value.toWire ++
    Wire.optional Tuple.toWire e.primaryKey

/-- Reads an entry. -/
def ofWire : Wire.Reader IndexEntry := do
  return ⟨← Wire.readText, ← Tuple.ofWire, ← Tuple.ofWire, ← Wire.readOptional Tuple.ofWire⟩

end IndexEntry

end ResumableQuery
