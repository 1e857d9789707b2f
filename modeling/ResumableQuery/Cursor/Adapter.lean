import ResumableQuery.Cursor.Basic

/-!
# Adapters

Cursors made from one other cursor, row by row: mapping, filtering, and bounding the number of rows.
Continuations pass through unchanged.
-/

namespace ResumableQuery.Cursor

/-- Each row transformed. -/
def map (f : α → β) : Cursor α → Cursor β
  | row v t rest => row (f v) t fun _ => (rest ()).map f
  | stop r t => stop r t
  | fail e => fail e
  | consult k => consult fun w => (k w).map f
  | commit w c => commit w (c.map f)
  | pause wait rest => pause wait fun _ => (rest ()).map f

/-- Each row transformed by a function that may fail the cursor. -/
def tryMap (f : α → Except CursorError β) : Cursor α → Cursor β
  | row v t rest =>
    match f v with
    | .ok u => row u t fun _ => (rest ()).tryMap f
    | .error e => fail e
  | stop r t => stop r t
  | fail e => fail e
  | consult k => consult fun w => (k w).tryMap f
  | commit w c => commit w (c.tryMap f)
  | pause wait rest => pause wait fun _ => (rest ()).tryMap f

/-- The rows that satisfy a predicate. -/
def filter (p : α → Bool) : Cursor α → Cursor α
  | row v t rest => if p v then row v t fun _ => (rest ()).filter p else (rest ()).filter p
  | stop r t => stop r t
  | fail e => fail e
  | consult k => consult fun w => (k w).filter p
  | commit w c => commit w (c.filter p)
  | pause wait rest => pause wait fun _ => (rest ()).filter p

/-- Rows and ends replaced together with their continuations. -/
def mapResult (onRow : α → Continuation → β × Continuation)
    (onStop : StopReason → Continuation → StopReason × Continuation) : Cursor α → Cursor β
  | row v t rest =>
    let (u, t) := onRow v t
    row u t fun _ => (rest ()).mapResult onRow onStop
  | stop r t =>
    let (r, t) := onStop r t
    stop r t
  | fail e => fail e
  | consult k => consult fun w => (k w).mapResult onRow onStop
  | commit w c => commit w (c.mapResult onRow onStop)
  | pause wait rest => pause wait fun _ => (rest ()).mapResult onRow onStop

/-! ### Skip and limits -/

/-- The limit that stops a cursor which has returned some rows.  The time limit never stops a cursor
before its first row. -/
def reachedLimit (p : ScanProperties) (returned : Nat) : Option StopReason :=
  if p.limit.any (· ≤ returned) then some .returnLimit
  else if returned > 0 && p.timeLimit.any (·.hasPassed returned) then some .timeLimit
  else none

/-- The rows of a cursor of which some are still to be left out and some were returned already. -/
def limitFrom (p : ScanProperties) (skip returned : Nat) : Cursor α → Cursor α
  | row v t rest =>
    if skip = 0 then
      row v t fun _ =>
        match reachedLimit p (returned + 1) with
        | some reason => stopFor reason t
        | none => limitFrom p 0 (returned + 1) (rest ())
    else limitFrom p (skip - 1) returned (rest ())
  | stop r t => stop r t
  | fail e => fail e
  | consult k => consult fun w => limitFrom p skip returned (k w)
  | commit w c => commit w (limitFrom p skip returned c)
  | pause wait rest => pause wait fun _ => limitFrom p skip returned (rest ())

/-- The rows of a cursor opened at a continuation, within the limits of a request.  Rows are left
out only by a cursor that starts at the beginning.  At a limit the continuation is that of the last
row that was returned or left out. -/
def skipThenLimit (p : ScanProperties) (c : Continuation) (source : Cursor α) : Cursor α :=
  match reachedLimit p 0 with
  | some reason => stopFor reason c
  | none => limitFrom p (if c.isStart then p.skip else 0) 0 source

end ResumableQuery.Cursor
