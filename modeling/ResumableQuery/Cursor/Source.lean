import ResumableQuery.Cursor.Basic

/-!
# Sources

The cursors that rows come from: lists that are there, lists that are still being computed, and key
ranges of a store, which are read a batch at a time.
-/

namespace ResumableQuery.Cursor

/-! ### Lists -/

/-- The rows of a list whose first element has an index. -/
def rowsFrom (index : UInt64) : List α → Cursor α
  | [] => exhausted
  | a :: rest =>
    row a (ListPosition.mk (index + 1)).toContinuation fun _ => rowsFrom (index + 1) rest

/-- The elements of a list from the beginning. -/
def ofList (items : List α) : Cursor α := rowsFrom 0 items

/-- The elements of a list from a continuation on. -/
def list (items : List α) (c : Continuation) : Except CursorError (Cursor α) :=
  match c with
  | .done => .ok exhausted
  | c =>
    match c.position ListPosition.ofWire with
    | .error e => .error (.badContinuation e)
    | .ok none => .ok (rowsFrom 0 items)
    | .ok (some p) => .ok (rowsFrom p.nextIndex (items.drop p.nextIndex.toNat))

/-- No rows, wherever it goes on. -/
def empty : Cursor α := exhausted

/-- A list that is there one turn after it was first asked for. -/
def future (items : Except CursorError (List α)) (c : Continuation) : Cursor α :=
  wait 1 <| ofExcept do list (← items) c

/-! ### Key ranges -/

/-- A scan of a key range. -/
structure KeyScan where
  store : StoreName
  range : KeyRange
  reverse : Bool
  /-- How many pairs are read at a time. -/
  batch : Nat
  /-- The budget that the pairs are taken from. -/
  budget : BudgetId

/-- How far a scan has come. -/
structure KeyScan.State where
  /-- The last key handed out. -/
  lastKey : Option Bytes
  /-- Pairs that were read and not handed out. -/
  buffer : List (Bytes × Bytes)
  /-- Whether the range held no more pairs when it was last read. -/
  sourceDone : Bool
  /-- The continuation of the last pair. -/
  token : Continuation
  /-- Whether no pair was handed out yet. -/
  fresh : Bool

namespace KeyScan

/-- The part of the range beyond the last key. -/
def remaining (s : KeyScan) : Option Bytes → KeyRange
  | none => s.range
  | some last =>
    if s.reverse then
      ⟨s.range.first, if last.before s.range.stop then last else s.range.stop⟩
    else
      let after := last ++ [0]
      ⟨if s.range.first.before after then after else s.range.first, s.range.stop⟩

/-- Reads the next batch if the buffer is empty and the range was not yet read to its end. -/
def fetch (s : KeyScan) (st : State) (w : World) : World × Except StoreError State :=
  if st.buffer.isEmpty && !st.sourceDone then
    match w.scan s.store (s.remaining st.lastKey) s.reverse s.batch with
    | (w, .ok pairs) => (w, .ok { st with buffer := pairs, sourceDone := pairs.length < s.batch })
    | (w, .error e) => (w, .error e)
  else (w, .ok st)

/-- Takes a pair from the budget; the first one always passes. -/
def charge (s : KeyScan) (fresh : Bool) (w : World) : World × Bool :=
  let b := w.budget s.budget
  if fresh then (w.setBudget s.budget b.scanFirst, true)
  else
    match b.tryScan with
    | some b => (w.setBudget s.budget b, true)
    | none => (w, false)

/-- The pairs from a state on, at most `count` of them; after that many the scan stops as for a
spent budget. -/
def pairs (s : KeyScan) : (count : Nat) → State → Cursor (Bytes × Bytes)
  | 0, st => stop .scanLimit st.token
  | count + 1, st =>
    perform (s.fetch st) fun
      | .error e => fail (.ofCause (.store e))
      | .ok st =>
        match st.buffer with
        | [] => exhausted
        | (key, value) :: buffer =>
          perform (s.charge st.fresh) fun allowed =>
            if allowed then
              let token := (KeyPosition.mk key).toContinuation
              row (key, value) token fun _ =>
                s.pairs count ⟨some key, buffer, st.sourceDone, token, false⟩
            else stop .scanLimit st.token

/-- How many pairs a scan hands out at most: more than the store holds when the scan is opened, by
more than can be added while it is open. -/
def mostPairs (s : KeyScan) (w : World) : Nat := (w.store s.store).length + UInt64.size

/-- Opens the scan at a continuation. -/
def openAt (s : KeyScan) (w : World) (c : Continuation) :
    Except CursorError (Cursor (Bytes × Bytes)) :=
  match c with
  | .done => .ok exhausted
  | c =>
    match c.position KeyPosition.ofWire with
    | .error e => .error (.badContinuation e)
    | .ok p =>
      let s := { s with batch := max 1 s.batch }
      .ok (s.pairs (s.mostPairs w) ⟨p.map (·.lastKey), [], false, c, true⟩)

end KeyScan

end ResumableQuery.Cursor
