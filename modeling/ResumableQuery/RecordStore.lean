import ResumableQuery.Cursor.Adapter
import ResumableQuery.Cursor.Source
import ResumableQuery.Record

/-!
# Record stores

A record store keeps records in a subspace of a key-value store: the key of a record is the subspace
followed by its packed primary key, and the value is its wire form.
-/

namespace ResumableQuery

/-- Records in a subspace of a key-value store. -/
structure RecordStore where
  store : StoreName
  subspace : Bytes
  config : Config

namespace RecordStore

/-- The key of a record. -/
def keyOf (s : RecordStore) (primaryKey : Tuple) : Bytes := s.subspace ++ primaryKey.pack

/-- The record in a stored value. -/
def decode (value : Bytes) : Except StoreError Record :=
  (Wire.decode Record.ofWire value).mapError .serialization

/-- The record in what was found under a key. -/
def decodeFound (found : Except StoreError (Option Bytes)) : Except StoreError (Option Record) := do
  match ← found with
  | some value => return some (← decode value)
  | none => return none

/-- The record of a primary key. -/
def load (s : RecordStore) (primaryKey : Tuple) (w : World) :
    World × Except StoreError (Option Record) :=
  let (w, found) := w.get s.store (s.keyOf primaryKey)
  (w, decodeFound found)

/-- Saves a record. -/
def save (s : RecordStore) (r : Record) (w : World) : World × Except StoreError Unit :=
  w.set s.store (s.keyOf r.primaryKey) r.toWire

/-- Deletes a record; whether there was one. -/
def delete (s : RecordStore) (primaryKey : Tuple) (w : World) : World × Except StoreError Bool :=
  w.clear s.store (s.keyOf primaryKey)

/-- The scan of the keys of a range of primary keys. -/
def keyScan (s : RecordStore) (r : TupleRange) (reverse : Bool) (budget : BudgetId) :
    Cursor.KeyScan :=
  ⟨s.store, r.toKeyRange s.subspace, reverse, s.config.scanBatchSize, budget⟩

/-- The records whose primary keys lie in a range, in order of their keys, within the limits of a
request.  The world is the one in which the scan is opened. -/
def scan (s : RecordStore) (w : World) (r : TupleRange) (c : Continuation) (p : ScanProperties)
    (budget : BudgetId) : Except CursorError (Cursor Record) := do
  let pairs ← (s.keyScan r p.reverse budget).openAt w c
  let records := pairs.tryMap fun (_, value) =>
    (decode value).mapError fun e => CursorError.ofCause (.store e)
  return records.skipThenLimit p c

end RecordStore

end ResumableQuery
