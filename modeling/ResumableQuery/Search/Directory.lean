import ResumableQuery.Search.Partition

/-!
# Directories

A directory holds the partitions of all indexes by index name and grouping key.  A partition comes
into being when it is first written.  Reading goes through a reader, which may be faulty: some of
its calls may fail, or find nothing.
-/

namespace ResumableQuery.Search

/-- What can be asked of a reader. -/
inductive ReaderCall where
  | fieldNames
  | search
  | primaryKey
  | terms
  deriving DecidableEq, Repr

namespace ReaderCall

/-- Name of a call. -/
def name : ReaderCall → String
  | fieldNames => "field_names"
  | search => "search"
  | primaryKey => "primary_key"
  | terms => "terms"

/-- The call of a name. -/
def ofName? (s : String) : Option ReaderCall :=
  [fieldNames, search, primaryKey, terms].find? (·.name == s)

end ReaderCall

/-- The calls of a reader that fail, and those that find no index. -/
structure Faults where
  failing : List ReaderCall
  missing : List ReaderCall
  deriving DecidableEq, Repr

namespace Faults

/-- No faults. -/
def clear : Faults := ⟨[], []⟩

/-- The error of a call, if it has one. -/
def error? (f : Faults) (call : ReaderCall) : Option SearchError :=
  if f.failing.contains call then some (.io "disk unavailable")
  else if f.missing.contains call then some (.indexNotFound "gone" [])
  else none

end Faults

/-- Place of a partition: index name and grouping key. -/
abbrev Place := String × Tuple

instance : Ord Place := ⟨fun a b => (compare a.1 b.1).then (compare a.2 b.2)⟩

/-- A partition and the faults of its registered reader. -/
structure Shelf where
  partition : Partition
  faults : Faults
  deriving Repr

/-- All partitions by place. -/
abbrev Directory := List (Place × Shelf)

/-- A way to read a partition. -/
structure Reader where
  place : Place
  faults : Faults
  deriving Repr

namespace Directory

/-- The partition at a place; one that was never written is empty. -/
def partition (d : Directory) (place : Place) : Partition :=
  match Ordered.find? place d with
  | some shelf => shelf.partition
  | none => Partition.empty place.1 place.2

/-- The directory after a change to the partition at a place, and what the change yields. -/
def write (d : Directory) (place : Place) (change : Partition → Partition × α) : Directory × α :=
  let faults := ((Ordered.find? place d).map (·.faults)).getD .clear
  let (p, result) := change (d.partition place)
  (Ordered.insert place ⟨p, faults⟩ d, result)

/-- The directory with faults of the reader at a place. -/
def setFaults (d : Directory) (place : Place) (faults : Faults) : Directory :=
  Ordered.insert place ⟨d.partition place, faults⟩ d

/-- The reader of a partition that was written. -/
def reader (d : Directory) (place : Place) : Except SearchError Reader :=
  match Ordered.find? place d with
  | some shelf => .ok ⟨place, shelf.faults⟩
  | none => .error (.indexNotFound place.1 place.2)

/-- The grouping keys of an index in order. -/
def groupingKeys (d : Directory) (indexName : String) : List Tuple :=
  (d.filter fun (place, _) => place.1 == indexName).map fun (place, _) => place.2

end Directory

namespace Reader

/-- The answer to a call unless the reader is faulty in it. -/
def ask (r : Reader) (call : ReaderCall) (answer : Except SearchError α) : Except SearchError α :=
  match r.faults.error? call with
  | some e => .error e
  | none => answer

/-- The fields that carry terms. -/
def fieldNames (r : Reader) (d : Directory) : Except SearchError (List String) :=
  r.ask .fieldNames (d.partition r.place).fieldNames

/-- The best hits of a query. -/
def search (r : Reader) (d : Directory) (query : Query) (after : Option ScoreDoc) (count : Nat) :
    Except SearchError Partition.TopHits :=
  r.ask .search ((d.partition r.place).search query after count)

/-- The primary key of a document. -/
def primaryKey (r : Reader) (d : Directory) (doc : UInt64) : Except SearchError Tuple :=
  r.ask .primaryKey ((d.partition r.place).primaryKey doc)

/-- The terms of a field. -/
def terms (r : Reader) (d : Directory) (field : String) :
    Except SearchError (List (String × Nat)) :=
  r.ask .terms ((d.partition r.place).terms field)

end Reader

end ResumableQuery.Search
