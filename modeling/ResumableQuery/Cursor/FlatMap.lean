import ResumableQuery.Cursor.Pipelined

/-!
# Nested iteration

For each value of an outer cursor an inner cursor is opened, and its rows are handed out before
those of the next.  Inner cursors are opened in a pipeline.  A continuation holds where the outer
cursor stood before the current value, what identifies that value, and the continuation of its
inner cursor; if another value is found there on resuming, its inner cursor starts from the
beginning.
-/

namespace ResumableQuery.Cursor

/-- What is known of an outer value while its inner cursor is opened and read. -/
structure OuterValue where
  /-- Where the outer cursor stood before the value. -/
  prior : Continuation
  /-- What identifies the value. -/
  check : Option Bytes

namespace OuterValue

/-- The continuation at an inner continuation. -/
def position (o : OuterValue) (inner : Continuation) : Continuation :=
  (FlatMapPosition.of o.prior o.check inner).toContinuation

end OuterValue

/-- What a continuation says about the first outer value: what identified it, and where its inner
cursor goes on. -/
abbrev Recorded := Option (Option Bytes × Continuation)

/-- Where the inner cursor of an outer value goes on.  Without check values the recorded
continuation is trusted. -/
def innerStart (recorded : Recorded) (checked : Bool) (check : Option Bytes) : Continuation :=
  match recorded with
  | none => .start
  | some (known, inner) => if !checked || known = check then inner else .start

/-- The rows of an inner cursor, with continuations of the nested iteration, and then the rest. -/
def inner (o : OuterValue) (rest : Unit → Cursor β) : Cursor β → Cursor β
  | row v t more => row v (o.position t) fun _ => inner o rest (more ())
  | stop r t => if r.isLimit then stop r (o.position t) else rest ()
  | fail e => fail e
  | consult k => consult fun w => inner o rest (k w)
  | commit w c => commit w (inner o rest c)
  | pause wait more => pause wait fun _ => inner o rest (more ())

/-- The rows of the oldest inner cursor that was opened, and then the rest with the queue without
it. -/
def enter (queue : Queue (Cursor β) OuterValue) (ending : Cursor β)
    (go : Queue (Cursor β) OuterValue → Cursor β) : Cursor β :=
  match queue with
  | [] => ending
  | (flight, o) :: rest =>
    flight.join fun
      | .ok c => inner o (fun _ => go rest) c
      | .error e => failWith rest e

/-- The rows of the inner cursors that were opened, and then an end. -/
def flushInner (ending : Cursor β) : (count : Nat) → Queue (Cursor β) OuterValue → Cursor β
  | 0, _ => ending
  | count + 1, queue => enter queue ending (flushInner ending count)

/-- A nested iteration: how an inner cursor is opened at a continuation, what identifies an outer
value, and how many inner cursors may be opened ahead. -/
structure Nesting (α β : Type) : Type where
  openInner : α → Continuation → Job (Cursor β)
  check : Option (α → Bytes)
  depth : Nat

namespace Nesting

/-- The end of the iteration at the end of the outer cursor. -/
def ending (r : StopReason) (outer : Continuation) : Cursor β :=
  if r.isLimit then stop r (OuterValue.position ⟨outer, none⟩ .start) else exhausted

/-- The rows of the inner cursors of an outer cursor that stands at `outer`, while fewer than
`depth` inner cursors are open. -/
def rows (n : Nesting α β) (recorded : Recorded) (outer : Continuation)
    (queue : Queue (Cursor β) OuterValue) : Cursor α → Cursor β
  | row v t rest =>
    let check := n.check.map (· v)
    let job := n.openInner v (innerStart recorded n.check.isSome check)
    perform (Flight.start n.depth job) fun flight =>
      let queue := queue ++ [(flight, ⟨outer, check⟩)]
      if queue.length < n.depth then n.rows none t queue (rest ())
      else enter queue exhausted fun queue => n.rows none t queue (rest ())
  | stop r t => flushInner (ending r t) queue.length queue
  | fail e => failWith queue e
  | consult k => consult fun w => n.rows recorded outer queue (k w)
  | commit w c => commit w (n.rows recorded outer queue c)
  | pause wait rest => pause wait fun _ => n.rows recorded outer queue (rest ())

/-- Where the outer cursor goes on, and what is recorded about its first value. -/
def resume (c : Continuation) : Except CursorError (Continuation × Recorded) :=
  match c with
  | .done => .ok (.done, none)
  | c =>
    match c.position FlatMapPosition.ofWire with
    | .error e => .error (.badContinuation e)
    | .ok none => .ok (.start, none)
    | .ok (some p) =>
      match Continuation.ofBytes p.outer, Continuation.ofBytes p.inner with
      | .error e, _ => .error (.badContinuation e)
      | .ok _, .error e => .error (.badContinuation e)
      | .ok outer, .ok inner => .ok (outer, some (p.check, inner))

/-- Opens the iteration at a continuation, given how the outer cursor is opened. -/
def openAt (n : Nesting α β) (openOuter : Continuation → Except CursorError (Cursor α))
    (c : Continuation) : Except CursorError (Cursor β) := do
  let (outer, recorded) ← resume c
  let source ← openOuter outer
  if outer.isDone then return exhausted
  else return { n with depth := max 1 n.depth }.rows recorded outer [] source

end Nesting

end ResumableQuery.Cursor
