import ResumableQuery.Search.Directory
import ResumableQuery.Store

/-!
# Tasks

Work that a cursor hands over goes on beside it as a task.  A task lets some turns pass, and then it
looks up the record of a hit or just ends; what its end is worth is up to the cursor that waits for
it.  A task that no cursor waits for any more goes on all the same, unless it was given up.
-/

namespace ResumableQuery

/-- Number of a task. -/
abbrev TaskId := Nat

/-- A look at the record of a hit: first for its primary key, then for what is stored under it. -/
structure Lookup where
  reader : Search.Reader
  doc : UInt64
  store : StoreName
  subspace : Bytes

/-- What a lookup finds. -/
abbrev Found := Except SearchError (Tuple × Except StoreError (Option Bytes))

/-- Work that goes on beside a cursor. -/
structure Task where
  id : TaskId
  /-- How many more turns it lets pass. -/
  waits : Nat
  /-- What it then looks up. -/
  lookup : Option Lookup
  /-- Whether no cursor waits for it any more. -/
  orphan : Bool

/-- The task once it was given up: all that is left of it is a turn in which nothing happens. -/
def Task.givenUp (t : Task) : Task := { t with waits := 0, lookup := none, orphan := true }

/-- What a cursor waits for. -/
structure Wait where
  /-- Whether it waits for the next turn only. -/
  turn : Bool
  /-- Tasks of which any one ends the wait. -/
  tasks : List TaskId
  deriving DecidableEq, Repr

namespace Wait

/-- The wait for the next turn. -/
def nextTurn : Wait := ⟨true, []⟩

/-- The wait for a task. -/
def task (id : TaskId) : Wait := ⟨false, [id]⟩

/-- The wait that is over as soon as one of several is. -/
def any (waits : List Wait) : Wait := ⟨waits.any turn, waits.flatMap tasks⟩

end Wait

end ResumableQuery
