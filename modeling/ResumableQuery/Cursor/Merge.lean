import ResumableQuery.Cursor.Legs

/-!
# Merges

A merge reads several legs side by side, each ordered by the same comparison key.  A union hands out
every key that some leg has, an intersection every key that all legs have, each time with the row of
the first leg that has it.  Where a leg stops for a limit the merge stops as well, because rows that
the leg still holds may come first.

The continuation holds the hash of the plan and, for each leg, the continuation after its last row
that was used.  A row that was only read ahead is read again on resuming.
-/

namespace ResumableQuery

/-- How rows of several legs are combined. -/
inductive SetOperation where
  | union
  | intersection
  deriving DecidableEq, Repr

namespace SetOperation

/-- Name of an operation. -/
def name : SetOperation → String
  | union => "union"
  | intersection => "intersection"

end SetOperation

namespace Cursor

/-- A merge: the operation, the comparison key of a row, the direction, and the hash of the plan. -/
structure Merge (α : Type) : Type where
  operation : SetOperation
  key : α → Except CursorError Tuple
  reverse : Bool
  planHash : UInt64

namespace Merge

/-- Whether a key comes before another in the direction of the merge. -/
def precedes (m : Merge α) (a b : Tuple) : Bool :=
  if m.reverse then (compare b a).isLT else (compare a b).isLT

/-- What the rows that were read ahead call for. -/
inductive Verdict where
  | stop (reason : StopReason)
  /-- Handing out a key. -/
  | take (key : Tuple)
  /-- Passing over all rows before a key. -/
  | pass (key : Tuple)
  deriving DecidableEq, Repr

/-- What legs that have all answered call for. -/
def verdict (m : Merge α) (legs : Legs α) : Verdict :=
  match m.operation with
  | .union =>
    match legs.limit?, legs.leading m.precedes with
    | some r, _ => .stop r
    | none, none => .stop .sourceExhausted
    | none, some key => .take key
  | .intersection =>
    if legs.any Leg.isExhausted then .stop .sourceExhausted
    else
      match legs.limit?, legs.leading (fun a b => m.precedes b a) with
      | some r, _ => .stop r
      | none, none => .stop .sourceExhausted
      | none, some key => if legs.all (·.key? = some key) then .take key else .pass key

/-- The continuation at a state of the legs. -/
def position (m : Merge α) (legs : Legs α) : Continuation :=
  (MergePosition.of m.planHash legs.tokens).toContinuation

set_option linter.unusedVariables false in
/-- The rows of the merge from a state of the legs on, given the places of the legs that were last
read. -/
def rows (m : Merge α) (lastRead : List Nat) (legs : Legs α) : Cursor α :=
  consult fun w =>
    match due : legs.due lastRead w with
    | place :: places =>
      match reading : legs.read m.key (place :: places) w with
      | (w, .error e) => commit w (fail e)
      | (w, .ok legs') =>
        commit w <|
          match legs'.waits with
          | [] => m.rows [] legs'
          | waits => pause (.any waits) fun _ => m.rows (place :: places) legs'
    | [] =>
      match m.verdict legs with
      | .stop r => stopFor r (m.position legs)
      | .take key =>
        match taken : legs.valueIf (· = key) with
        | some v =>
          row v (m.position (legs.useIf (· = key))) fun _ => m.rows [] (legs.useIf (· = key))
        | none => exhausted
      | .pass key =>
        match passed : legs.valueIf (· ≠ key) with
        | some _ => m.rows [] (legs.useIf (· ≠ key))
        | none => exhausted
termination_by legs
decreasing_by
  · exact Legs.below_read (Legs.isDue_of_due_eq_cons due) reading
  · exact Legs.below_read (Legs.isDue_of_due_eq_cons due) reading
  · exact Legs.below_useIf taken
  · exact Legs.below_useIf passed

/-- Where each of `count` legs goes on. -/
def resume (m : Merge α) (count : Nat) (c : Continuation) :
    Except CursorError (List Continuation) :=
  match c.position MergePosition.ofWire with
  | .error e => .error (.badContinuation e)
  | .ok none => .ok (List.replicate count .start)
  | .ok (some p) =>
    if p.planHash ≠ m.planHash then
      .error (((CursorError.argument "continuation belongs to a different plan").add
        "expected_plan_hash" (toString m.planHash)).add "actual_plan_hash" (toString p.planHash))
    else
      match p.continuations with
      | .error e => .error (.badContinuation e)
      | .ok tokens =>
        if tokens.length ≠ count then
          .error (((CursorError.argument "continuation has the wrong number of legs").add
            "expected" (toString count)).add "actual" (toString tokens.length))
        else .ok tokens

/-- How a leg is opened at a continuation. -/
abbrev OpenLeg (α : Type) : Type := Continuation → Except CursorError (Cursor α)

/-- A leg at its continuation; one that had run dry is not opened again. -/
def openLeg (opener : OpenLeg α) (c : Continuation) : Except CursorError (Leg α) :=
  if c.isDone then .ok (.ended .sourceExhausted c) else (opener c).map (.unread c)

/-- Opens the merge at a continuation, given how its legs are opened. -/
def openAt (m : Merge α) (openers : List (OpenLeg α)) (c : Continuation) :
    Except CursorError (Cursor α) := do
  if c.isDone then return exhausted
  else
    let tokens ← m.resume openers.length c
    let legs ← (openers.zip tokens).mapM fun (opener, token) => openLeg opener token
    return m.rows [] legs

end Merge

end Cursor

end ResumableQuery
