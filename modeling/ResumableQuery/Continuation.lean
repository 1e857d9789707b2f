import ResumableQuery.Tuple.Packing

/-!
# Continuations

A continuation says where a cursor goes on: at the start, at a position that the cursor itself
wrote, or nowhere because it had run dry.  It has a byte form and a base64 form for callers to keep.
-/

namespace ResumableQuery

/-- Where a cursor goes on. -/
inductive Continuation where
  /-- From the beginning. -/
  | start
  /-- From a position that the cursor wrote. -/
  | resume (payload : Bytes)
  /-- Nowhere: the cursor had run dry. -/
  | done
  deriving DecidableEq, Repr, Inhabited

namespace Continuation

/-- Whether this is the beginning. -/
def isStart : Continuation → Bool
  | start => true
  | _ => false

/-- Whether the cursor had run dry. -/
def isDone : Continuation → Bool
  | done => true
  | _ => false

/-- The position that the cursor wrote. -/
def payload? : Continuation → Option Bytes
  | resume payload => some payload
  | _ => none

/-- The byte form: nothing for the start, a zero byte for the end, a one before a position. -/
def toBytes : Continuation → Bytes
  | start => []
  | resume payload => 1 :: payload
  | done => [0]

/-- The continuation of a byte form. -/
def ofBytes : Bytes → Except DecodeError Continuation
  | [] => .ok start
  | tag :: rest =>
    if tag = 0 ∧ rest = [] then .ok done
    else if tag = 1 then .ok (resume rest)
    else .error .format

/-- The base64 form. -/
def toBase64 (c : Continuation) : String := Base64Url.encode c.toBytes

/-- The continuation of a base64 form. -/
def ofBase64 (text : String) : Except DecodeError Continuation :=
  match Base64Url.decode (Text.utf8 text) with
  | .ok b => ofBytes b
  | .error fault => .error (.base64 fault)

/-- The continuation as a reader sees it. -/
def display : Continuation → String
  | start => "Start"
  | done => "End"
  | resume payload => "Resume(" ++ (resume payload).toBase64 ++ ")"

/-- The position that a continuation carries, if it carries one, given how to read it. -/
def position (read : Wire.Reader α) (c : Continuation) : Except DecodeError (Option α) :=
  match c with
  | resume payload =>
    match Wire.decode read payload with
    | .ok p => .ok (some p)
    | .error fault => .error (.message fault)
  | _ => .ok none

end Continuation

end ResumableQuery
