import ResumableQuery.Expression.Key
import ResumableQuery.Tuple.Packing

/-!
# Errors

A cursor fails for one of four reasons: the caller handed in something unusable, the cursor had
failed before, it had been closed, or something below it failed.  Unusable arguments and failures
carry named details, in the order in which they were added.
-/

namespace ResumableQuery

/-- What can go wrong in a store. -/
inductive StoreError where
  /-- A stored key cannot be read. -/
  | decode (e : DecodeError)
  /-- A stored record cannot be read. -/
  | serialization (fault : Wire.ReadError)
  /-- The store itself failed. -/
  | backend (reason : String)
  /-- A task working for the store did not end well. -/
  | taskFailed (reason : String)
  deriving DecidableEq, Repr

/-- Name of the kind of a store error. -/
def StoreError.kind : StoreError → String
  | .decode _ => "DecodeError"
  | .serialization _ => "SerializationError"
  | .backend _ => "Backend"
  | .taskFailed _ => "TaskFailed"

/-- Wording of a store error. -/
def StoreError.message : StoreError → String
  | .decode e => "decode error: " ++ e.text
  | .serialization fault => "serialization error: " ++ fault.message
  | .backend reason => "backend error: " ++ reason
  | .taskFailed reason => "task failed: " ++ reason

/-- What can go wrong in a search engine. -/
inductive SearchError where
  /-- Nothing was ever written for the index and grouping key. -/
  | indexNotFound (index : String) (groupingKey : Tuple)
  /-- The engine itself failed. -/
  | io (reason : String)
  deriving DecidableEq, Repr

/-- Name of the kind of a search error. -/
def SearchError.kind : SearchError → String
  | .indexNotFound _ _ => "IndexNotFound"
  | .io _ => "Io"

/-- Wording of a search error. -/
def SearchError.message : SearchError → String
  | .indexNotFound index groupingKey => "index not found: " ++ index ++ " " ++ groupingKey.display
  | .io reason => "search engine I/O failure: " ++ reason

/-- Named details of an error, in the order in which they were added. -/
abbrev Details := List (String × String)

/-- An unusable argument. -/
structure ArgumentError where
  reason : String
  details : Details
  deriving DecidableEq, Repr

namespace ArgumentError

/-- The error with one more detail. -/
def add (e : ArgumentError) (key value : String) : ArgumentError :=
  { e with details := e.details ++ [(key, value)] }

/-- The first detail of a name. -/
def detail? (e : ArgumentError) (key : String) : Option String := e.details.lookup key

/-- Wording of the error: the reason, then each detail. -/
def message (e : ArgumentError) : String :=
  e.reason ++ String.join (e.details.map fun (key, value) => " " ++ key ++ "=" ++ value)

end ArgumentError

/-- What failed below a cursor. -/
inductive Cause where
  | store (e : StoreError)
  | evaluation (e : EvaluationError)
  | search (e : SearchError)
  deriving DecidableEq, Repr

/-- Wording of a cause. -/
def Cause.message : Cause → String
  | .store e => e.message
  | .evaluation e => e.message
  | .search e => e.message

/-- Why a cursor has no result. -/
inductive CursorError where
  /-- The caller supplied something unusable. -/
  | invalidArgument (e : ArgumentError)
  /-- The cursor had failed before. -/
  | unusable
  /-- The cursor had been closed. -/
  | closed
  /-- Something below the cursor failed. -/
  | failure (cause : Cause) (details : Details)
  deriving DecidableEq, Repr

namespace CursorError

/-- An unusable argument without details. -/
def argument (reason : String) : CursorError := .invalidArgument ⟨reason, []⟩

/-- A failure without details. -/
def ofCause (cause : Cause) : CursorError := .failure cause []

/-- The error with one more detail, if it is of a kind that carries details. -/
def add (e : CursorError) (key value : String) : CursorError :=
  match e with
  | invalidArgument a => invalidArgument (a.add key value)
  | failure cause details => failure cause (details ++ [(key, value)])
  | e => e

/-- The error with some more details. -/
def addAll (e : CursorError) (details : Details) : CursorError :=
  details.foldl (fun e (key, value) => e.add key value) e

/-- A continuation that cannot be read. -/
def badContinuation (cause : DecodeError) : CursorError :=
  (argument "continuation could not be decoded").add "cause" cause.text

/-- Whether the caller supplied something unusable. -/
def isInvalidArgument : CursorError → Bool
  | invalidArgument _ => true
  | _ => false

/-- Name of the kind of error. -/
def kind : CursorError → String
  | invalidArgument _ => "InvalidArgument"
  | unusable => "Unusable"
  | closed => "Closed"
  | failure _ _ => "Failure"

/-- Wording of the error. -/
def message : CursorError → String
  | invalidArgument a => "invalid argument: " ++ a.message
  | unusable => "cursor is not usable after a failure"
  | closed => "cursor is closed"
  | failure cause _ => "internal error: " ++ cause.message

end CursorError

end ResumableQuery
