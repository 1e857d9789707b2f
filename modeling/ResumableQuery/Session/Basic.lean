import ResumableQuery.Plan.Basic
import ResumableQuery.Search.Scan
import ResumableQuery.Session.Recipe

/-!
# Sessions

A session holds a store of records, an index over it, a budget, and at most one open cursor.  It
remembers every continuation that was handed out, so that a later cursor can go on from any of them.
-/

namespace ResumableQuery

/-- A row of whatever is open. -/
inductive Row where
  | value (v : TupleValue)
  | record (r : Record)
  | entry (e : IndexEntry)

/-- A session. -/
structure Session where
  world : World
  records : RecordStore
  definition : Search.IndexDefinition
  budget : BudgetId
  opened : Option (Handle Row)
  /-- The continuations that were handed out, in order. -/
  tokens : List Continuation
  tail : Tail

namespace Session

/-- Name of the store that a session begins with. -/
def mainStore : StoreName := "main"

/-- A session in which nothing was stored. -/
def new (subspace : Tuple) (config : Config) (definition : Search.IndexDefinition) : Session :=
  let (world, budget) := (World.empty.setStore mainStore []).newBudget none
  ⟨world, ⟨mainStore, subspace.pack, config⟩, definition, budget, none, [], .opened⟩

/-- Does something to the world. -/
def act (s : Session) (f : World → World × α) : Session × α :=
  let (w, x) := f s.world
  ({ s with world := w }, x)

/-! ### Stores -/

/-- Lets store calls fail once some more have succeeded, or never. -/
def failAfter (s : Session) (calls : Option Nat) : Session :=
  { s with world := { s.world with callsLeft := calls } }

/-- Goes on with the store of a name. -/
def useStore (s : Session) (name : StoreName) : Session :=
  { s with world := s.world.setStore name (s.world.store name)
           records := { s.records with store := name } }

/-- The names of all stores in order. -/
def storeNames (s : Session) : List StoreName := s.world.stores.map (·.1)

/-- Deletes the store of a name; whether there was one. -/
def deleteStore (s : Session) (name : StoreName) : Session × Bool :=
  ({ s with world := { s.world with stores := Ordered.erase name s.world.stores } },
    Ordered.contains name s.world.stores)

/-- Reads the value of a key of the store. -/
def getPair (s : Session) (key : Bytes) : Session × Except StoreError (Option Bytes) :=
  s.act fun w => w.get s.records.store key

/-- Gives a key of the store a value. -/
def setPair (s : Session) (key value : Bytes) : Session × Except StoreError Unit :=
  s.act fun w => w.set s.records.store key value

/-- Takes the value of a key of the store away; whether it had one. -/
def clearPair (s : Session) (key : Bytes) : Session × Except StoreError Bool :=
  s.act fun w => w.clear s.records.store key

/-- Reads at most `limit` pairs of an interval of the store. -/
def scanPairs (s : Session) (r : KeyRange) (limit : Nat) (reverse : Bool) :
    Session × Except StoreError (List (Bytes × Bytes)) :=
  s.act fun w => w.scan s.records.store r reverse limit

/-- How many pairs the store holds. -/
def pairCount (s : Session) : Nat := (s.world.store s.records.store).length

/-- Saves a record. -/
def save (s : Session) (r : Record) : Session × Except StoreError Unit := s.act (s.records.save r)

/-- The record of a primary key. -/
def load (s : Session) (primaryKey : Tuple) : Session × Except StoreError (Option Record) :=
  s.act (s.records.load primaryKey)

/-- Deletes a record; whether there was one. -/
def delete (s : Session) (primaryKey : Tuple) : Session × Except StoreError Bool :=
  s.act (s.records.delete primaryKey)

/-- Begins a new budget, for cursors that are opened later. -/
def startBudget (s : Session) (limit : Option Nat) : Session :=
  let (w, id) := s.world.newBudget limit
  { s with world := w, budget := id }

/-- How many records were taken from the budget. -/
def scanned (s : Session) : Nat := (s.world.budget s.budget).scanned

/-! ### Cursors -/

/-- What a cursor is opened over. -/
inductive Source where
  | recipe (r : Recipe)
  | range (r : TupleRange)
  | plan (p : Plan) (bindings : Bindings)
  | search (bounds : Search.ScanBounds)

/-- Where a cursor goes on, by what was handed out before. -/
inductive From where
  | start
  | done
  /-- After what was handed out last. -/
  | last
  /-- After what was handed out at a place, counted round and round in both directions. -/
  | place (index : Int)
  | payload (b : Bytes)
  | token (text : String)

/-- The continuation that is meant. -/
def continuation (s : Session) : From → Except DecodeError Continuation
  | .start => .ok .start
  | .done => .ok .done
  | .last => .ok (s.tokens.getLast?.getD .start)
  | .place index => .ok ((s.tokens[(index % s.tokens.length).toNat]?).getD .start)
  | .payload b => .ok (.resume b)
  | .token text => Continuation.ofBase64 text

/-- The index of the session. -/
def index (s : Session) : Search.Index := ⟨s.definition, s.records⟩

/-- The rows of a source at a continuation, within the limits of a request; a recipe has its own. -/
def rows (s : Session) (source : Source) (c : Continuation) (p : ScanProperties) :
    Except CursorError (Cursor Row) := do
  match source with
  | .recipe r => return (← r.openAt ⟨s.records.store, s.budget⟩ s.world c).map .value
  | .range r => return (← s.records.scan s.world r c p s.budget).map .record
  | .plan plan bindings =>
    return (← plan.execute ⟨s.records, bindings, s.budget, s.world⟩ c p).map .record
  | .search bounds => return (← s.index.scan bounds c p).map .entry

/-- Opens a cursor in place of the open one, whose tasks go on although nobody waits for them. -/
def openCursor (s : Session) (source : Source) (c : Continuation) (p : ScanProperties) :
    Session × Except CursorError Unit :=
  let opened := (s.rows source c p).map Handle.new
  ({ s with world := s.world.forsake, opened := opened.toOption }, opened.map fun _ => ())

/-- What a session answers for asking a cursor. -/
abbrev Answer := Except CursorError (CursorResult Row)

/-- Remembers the continuation of an answer. -/
def remember (s : Session) (answer : Except CursorError (CursorResult α)) : Session :=
  match answer with
  | .ok result => { s with tokens := s.tokens ++ [result.token] }
  | .error _ => s

/-- Asks the open cursor for rows, some number of times. -/
def next (s : Session) (h : Handle Row) : (times : Nat) → Session × List Answer
  | 0 => (s, [])
  | times + 1 =>
    let (w, h, answer) := h.next s.world
    let (s, rest) := next ({ s with world := w, opened := some h }.remember answer) h times
    (s, answer :: rest)

/-- Asks the open cursor for rows until there is none. -/
def drain (s : Session) (h : Handle Row) : Session × List Answer :=
  let (w, h, answers) := h.drain s.world
  (answers.foldl remember { s with world := w, opened := some h }, answers)

/-- Every row of the open cursor, the reason of the end and the continuation there.  The cursor is
used up. -/
def collect (s : Session) (h : Handle Row) :
    Session × Except CursorError (List Row × StopReason × Continuation) :=
  let (w, collected) := h.collect s.world
  let s := { s with world := w, opened := none }
  match collected with
  | .ok (rows, r, t) => ({ s with tokens := s.tokens ++ [t] }, .ok (rows, r, t))
  | .error e => (s, .error e)

/-- Closes the open cursor. -/
def close (s : Session) (h : Handle Row) : Session :=
  let (w, h) := h.close s.world
  { s with world := w, opened := some h }

/-! ### The state towards a caller -/

/-- The end that the state stands for, if any. -/
def guardTail (s : Session) : Session × Option Answer :=
  match s.tail.guard with
  | some answer => (s.remember answer, some answer)
  | none => (s, none)

/-- Lets the state observe an answer. -/
def observeTail (s : Session) (answer : Answer) : Session :=
  { s with tail := s.tail.observe answer }.remember answer

/-- Closes the state. -/
def closeTail (s : Session) : Session := { s with tail := .closed }

/-! ### Search -/

/-- Brings the record store in line with a replaced record. -/
def storeRecord (s : Session) (old new : Option Record) (w : World) :
    World × Except StoreError Unit :=
  match new, old with
  | some r, _ => s.records.save r w
  | none, some r =>
    match s.records.delete r.primaryKey w with
    | (w, .ok _) => (w, .ok ())
    | (w, .error e) => (w, .error e)
  | none, none => (w, .ok ())

/-- Brings the index in line with a replaced record, and before that the record store if asked. -/
def update (s : Session) (old new : Option Record) (store : Bool) :
    Session × Except CursorError Unit :=
  let (s, stored) := if store then s.act (s.storeRecord old new) else (s, .ok ())
  match stored with
  | .error e => (s, .error (.ofCause (.store e)))
  | .ok () =>
    match s.index.update old new s.world.directory with
    | .ok d => ({ s with world := { s.world with directory := d } }, .ok ())
    | .error e => (s, .error e)

/-- Changes the partition of a grouping key. -/
def write (s : Session) (groupingKey : Tuple) (change : Search.Partition → Search.Partition × α) :
    Session × α :=
  s.act fun w =>
    let (d, x) := w.directory.write (s.index.place groupingKey) change
    ({ w with directory := d }, x)

/-- Reads the partition of a grouping key. -/
def read (s : Session) (groupingKey : Tuple)
    (ask : Search.Reader → Search.Directory → Except SearchError α) :
    Except SearchError α := do
  ask (← s.world.directory.reader (s.index.place groupingKey)) s.world.directory

/-- Adds a document; its number. -/
def addDocument (s : Session) (groupingKey primaryKey : Tuple) (texts : List (String × String)) :
    Session × Nat :=
  s.write groupingKey (·.add primaryKey texts)

/-- Deletes the document of a record; whether there was one. -/
def deleteDocument (s : Session) (groupingKey primaryKey : Tuple) : Session × Bool :=
  s.write groupingKey (·.delete primaryKey)

/-- How many documents a partition holds. -/
def documentCount (s : Session) (groupingKey : Tuple) : Session × Nat :=
  s.write groupingKey fun p => (p, p.liveCount)

/-- The fields of a partition that carry terms. -/
def fieldNames (s : Session) (groupingKey : Tuple) : Except SearchError (List String) :=
  s.read groupingKey (·.fieldNames)

/-- The terms of a field of a partition. -/
def terms (s : Session) (groupingKey : Tuple) (field : String) :
    Except SearchError (List (String × Nat)) :=
  s.read groupingKey (·.terms · field)

/-- The primary key of a document of a partition. -/
def documentKey (s : Session) (groupingKey : Tuple) (doc : UInt64) : Except SearchError Tuple :=
  s.read groupingKey (·.primaryKey · doc)

/-- The best hits of a query in a partition. -/
def search (s : Session) (groupingKey : Tuple) (query : Search.Query) (after : Option ScoreDoc)
    (count : Nat) : Except SearchError Search.Partition.TopHits :=
  s.read groupingKey (·.search · query after count)

/-- The grouping keys of an index. -/
def groupingKeys (s : Session) (indexName : String) : List Tuple :=
  s.world.directory.groupingKeys indexName

/-- Makes the reader of the partition of a grouping key faulty. -/
def setFaults (s : Session) (groupingKey : Tuple) (faults : Search.Faults) : Session :=
  { s with world := { s.world with
      directory := s.world.directory.setFaults (s.index.place groupingKey) faults } }

end Session

end ResumableQuery
