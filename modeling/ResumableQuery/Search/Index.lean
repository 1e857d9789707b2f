import ResumableQuery.RecordStore
import ResumableQuery.Search.Definition

/-!
# Search indexes

An index over a record store.  When a record is replaced, its document is taken out of the partition
where it was and a new one is put into the partition where it belongs; if neither the partition nor
the indexed values have changed, nothing is written.
-/

namespace ResumableQuery.Search

/-- A full-text index over the records of a store. -/
structure Index where
  definition : IndexDefinition
  records : RecordStore

namespace Index

/-- Name of the index. -/
def name (i : Index) : String := i.definition.name

/-- The place of the partition of a grouping key. -/
def place (i : Index) (groupingKey : Tuple) : Place := (i.name, groupingKey)

/-- The texts among indexed values, with the names of their fields. -/
def texts (fields : List DocumentField) : List (String × String) :=
  fields.filterMap fun f => f.text?.map fun text => (f.name, text)

/-- The partition and indexed values of a record, if there is one and the index covers it. -/
def fieldsOf (i : Index) (r : Option Record) :
    Except CursorError (Option (Tuple × List DocumentField)) :=
  match r with
  | none => .ok none
  | some r => (i.definition.documentFields r).mapError fun e => .ofCause (.evaluation e)

/-- The directory without the document of a record. -/
def remove (i : Index) (old : Option Record) (fields : Option (Tuple × List DocumentField))
    (d : Directory) : Directory :=
  match old, fields with
  | some r, some (groupingKey, _) => (d.write (i.place groupingKey) (·.delete r.primaryKey)).1
  | _, _ => d

/-- The directory with a document for a record. -/
def put (i : Index) (new : Option Record) (fields : Option (Tuple × List DocumentField))
    (d : Directory) : Directory :=
  match new, fields with
  | some r, some (groupingKey, fields) =>
    (d.write (i.place groupingKey) (·.add r.primaryKey (texts fields))).1
  | _, _ => d

/-- The directory after a record was replaced, or saved for the first time, or deleted. -/
def update (i : Index) (old new : Option Record) (d : Directory) :
    Except CursorError Directory := do
  let oldFields ← i.fieldsOf old
  let newFields ← i.fieldsOf new
  if oldFields == newFields then return d
  else return i.put new newFields (i.remove old oldFields d)

end Index

end ResumableQuery.Search
