import ResumableQuery.World.Turn

/-!
# Cursors

A cursor hands out rows one at a time, each with the continuation from which another cursor goes on
right after it, until it stops or fails.  Here a cursor *is* what it still has to hand out: a row
and what comes after it, or an end.  In between it may consult the world and change it, so what it
hands out can depend on the store as it is when the row is asked for, and it may pause until
something has happened.  Since every path through a cursor is finite, functions on cursors are
defined by recursion on them.

`poll` asks for the next row up to a pause, and `next` waits through all pauses.  `Handle` adds the
protocol towards callers: ends are repeated, and after a failure or after closing there is only an
error.
-/

namespace ResumableQuery

/-- Why a cursor has no next row. -/
inductive StopReason where
  | sourceExhausted
  | returnLimit
  | timeLimit
  | scanLimit
  deriving DecidableEq, Repr

namespace StopReason

/-- Whether the cursor stopped early, so that it can be resumed. -/
def isLimit : StopReason → Bool
  | sourceExhausted => false
  | _ => true

/-- Whether the limit was imposed on the execution rather than on the returned rows. -/
def isOutOfBand : StopReason → Bool
  | timeLimit => true
  | scanLimit => true
  | _ => false

/-- The reason as a reader sees it. -/
def display : StopReason → String
  | sourceExhausted => "source exhausted"
  | returnLimit => "return limit reached"
  | timeLimit => "time limit reached"
  | scanLimit => "scan limit reached"

end StopReason

/-- What a cursor still has to hand out. -/
inductive Cursor (α : Type) : Type where
  /-- A row, the continuation right after it, and the rest. -/
  | row (value : α) (token : Continuation) (rest : Unit → Cursor α)
  /-- An end, with the continuation from which to go on. -/
  | stop (reason : StopReason) (token : Continuation)
  /-- A failure. -/
  | fail (error : CursorError)
  /-- A look at the world. -/
  | consult (next : World → Cursor α)
  /-- A change of the world. -/
  | commit (w : World) (next : Cursor α)
  /-- A pause, and what comes after it. -/
  | pause (wait : Wait) (rest : Unit → Cursor α)

/-- What a caller gets for asking: a row or an end, and a continuation. -/
inductive CursorResult (α : Type) : Type where
  | next (value : α) (token : Continuation)
  | stopped (reason : StopReason) (token : Continuation)
  deriving DecidableEq, Repr

namespace CursorResult

/-- The end of a source that ran dry. -/
def exhausted : CursorResult α := stopped .sourceExhausted .done

/-- An end; the continuation counts only if there is something to go on with. -/
def stoppedFor (reason : StopReason) (token : Continuation) : CursorResult α :=
  if reason.isLimit then stopped reason token else exhausted

/-- The continuation. -/
def token : CursorResult α → Continuation
  | next _ t => t
  | stopped _ t => t

end CursorResult

namespace Cursor

/-- A source that ran dry. -/
def exhausted : Cursor α := stop .sourceExhausted .done

/-- An end; the continuation counts only if there is something to go on with. -/
def stopFor (reason : StopReason) (token : Continuation) : Cursor α :=
  if reason.isLimit then stop reason token else exhausted

/-- Does something to the world and goes on with the result. -/
def perform (act : World → World × β) (go : β → Cursor α) : Cursor α :=
  consult fun w => let (w, x) := act w; commit w (go x)

/-- Lets some turns pass. -/
def wait : (turns : Nat) → Cursor α → Cursor α
  | 0, c => c
  | turns + 1, c => pause .nextTurn fun _ => wait turns c

/-- The cursor of a construction that may be refused. -/
def ofExcept : Except CursorError (Cursor α) → Cursor α
  | .ok c => c
  | .error e => fail e

/-! ### Asking -/

/-- The answer of a cursor that was asked for a row. -/
inductive Reply (α : Type) : Type where
  | row (value : α) (token : Continuation) (rest : Cursor α)
  | stop (reason : StopReason) (token : Continuation)
  | fail (error : CursorError)

/-- How far a cursor that was asked for a row gets without waiting. -/
inductive Progress (α : Type) : Type where
  | ready (reply : Reply α)
  | pending (wait : Wait) (rest : Cursor α)

/-- Asks for the next row without waiting for it. -/
def poll : Cursor α → World → World × Progress α
  | row v t rest, w => (w, .ready (.row v t (rest ())))
  | stop r t, w => (w, .ready (.stop r t))
  | fail e, w => (w, .ready (.fail e))
  | consult k, w => (k w).poll w
  | commit w c, _ => c.poll w
  | pause wait rest, w => (w, .pending wait (rest ()))

/-- Asks for the next row. -/
def next : Cursor α → World → World × Reply α
  | row v t rest, w => (w, .row v t (rest ()))
  | stop r t, w => (w, .stop r t)
  | fail e, w => (w, .fail e)
  | consult k, w => (k w).next w
  | commit w c, _ => c.next w
  | pause wait rest, w => (rest ()).next (w.await wait)

/-- How a cursor ends. -/
inductive Ending where
  | stopped (reason : StopReason) (token : Continuation)
  | failed (error : CursorError)
  deriving DecidableEq, Repr

/-- All rows with their continuations, and the end. -/
def run : Cursor α → World → World × List (α × Continuation) × Ending
  | row v t rest, w =>
    let (w, rows, e) := (rest ()).run w
    (w, (v, t) :: rows, e)
  | stop r t, w => (w, [], .stopped r t)
  | fail e, w => (w, [], .failed e)
  | consult k, w => (k w).run w
  | commit w c, _ => c.run w
  | pause wait rest, w => (rest ()).run (w.await wait)

end Cursor

/-- The state of a cursor towards its caller. -/
inductive Tail where
  | opened
  | done (reason : StopReason) (token : Continuation)
  | failed
  | closed
  deriving DecidableEq, Repr

namespace Tail

/-- The end that the caller gets without the cursor being asked. -/
def ending? : Tail → Option (Except CursorError (StopReason × Continuation))
  | opened => none
  | done r c => some (.ok (r, c))
  | failed => some (.error .unusable)
  | closed => some (.error .closed)

/-- What the caller gets without the cursor being asked. -/
def guard (t : Tail) : Option (Except CursorError (CursorResult α)) :=
  t.ending?.map fun e => e.map fun (r, c) => .stopped r c

/-- The state after a result. -/
def observe (t : Tail) (result : Except CursorError (CursorResult α)) : Tail :=
  match result with
  | .ok (.stopped r c) => done r c
  | .ok (.next _ _) => t
  | .error _ => failed

/-- Whether the cursor may be asked. -/
def isOpen : Tail → Bool
  | opened => true
  | _ => false

end Tail

/-- A cursor as its caller holds it. -/
structure Handle (α : Type) : Type where
  tail : Tail
  cursor : Cursor α

namespace Handle

/-- A new cursor. -/
def new (c : Cursor α) : Handle α := ⟨.opened, c⟩

/-- Asks for the next row.  Once the cursor has stopped its tasks are given up. -/
def next (h : Handle α) (w : World) : World × Handle α × Except CursorError (CursorResult α) :=
  match h.tail.guard with
  | some result => (w, h, result)
  | none =>
    match h.cursor.next w with
    | (w, .row v t rest) => (w, ⟨.opened, rest⟩, .ok (.next v t))
    | (w, .stop r t) => (w.dropAll, ⟨.done r t, h.cursor⟩, .ok (.stopped r t))
    | (w, .fail e) => (w, ⟨.failed, h.cursor⟩, .error e)

/-- Gives the cursor up, and its tasks with it. -/
def close (h : Handle α) (w : World) : World × Handle α := (w.dropAll, ⟨.closed, h.cursor⟩)

/-- The world and the state after an end, and the result that a caller sees of it. -/
def atEnding (c : Cursor α) (w : World) :
    Cursor.Ending → World × Handle α × Except CursorError (CursorResult α)
  | .stopped r t => (w.dropAll, ⟨.done r t, c⟩, .ok (.stopped r t))
  | .failed e => (w, ⟨.failed, c⟩, .error e)

/-- Asks for rows until there is none. -/
def drain (h : Handle α) (w : World) :
    World × Handle α × List (Except CursorError (CursorResult α)) :=
  match h.tail.guard with
  | some result => (w, h, [result])
  | none =>
    let (w, rows, e) := h.cursor.run w
    let (w, h, last) := atEnding h.cursor w e
    (w, h, rows.map (fun (v, t) => .ok (.next v t)) ++ [last])

/-- Every value, the reason of the end and the continuation there.  The cursor is given up. -/
def collect (h : Handle α) (w : World) :
    World × Except CursorError (List α × StopReason × Continuation) :=
  match h.tail.ending? with
  | some e => (w.dropAll, e.map fun (r, t) => ([], r, t))
  | none =>
    match h.cursor.run w with
    | (w, rows, .stopped r t) => (w.dropAll, .ok (rows.map (·.1), r, t))
    | (w, _, .failed e) => (w.dropAll, .error e)

end Handle

end ResumableQuery
