import ResumableQuery.World.Basic

/-!
# Turns

Tasks go on while a cursor waits, a turn at a time, and at no other time.  In a turn the tasks at
the front of the queue are served once each.  One that has let enough turns pass does what it does
and ends; the others get behind the tasks that were not served, the last one served first.

A cursor that waits looks again after each turn in which its wait ends, so that what ended in a turn
is seen after that turn.
-/

namespace ResumableQuery.World

/-- Looks up the record of a hit. -/
def lookUp (w : World) (l : Lookup) : World × Found :=
  match l.reader.primaryKey w.directory l.doc with
  | .error e => (w, .error e)
  | .ok primaryKey =>
    let (w, value) := w.get l.store (l.subspace ++ primaryKey.pack)
    (w, .ok (primaryKey, value))

/-- Starts a task that lets some turns pass, and its number. -/
def start (w : World) (waits : Nat) (lookup : Option Lookup) : World × TaskId :=
  ({ w with tasks := w.tasks ++ [⟨w.nextTask, waits, lookup, false⟩], nextTask := w.nextTask + 1 },
    w.nextTask)

/-- Remembers the end of a task, unless nobody waits for it. -/
def remember (w : World) (t : Task) (found : Option Found) : World :=
  if t.orphan then w else { w with ended := w.ended ++ [(t.id, found)] }

/-- Lets a task do what it does. -/
def finish (w : World) (t : Task) : World :=
  match t.lookup with
  | none => w.remember t none
  | some l =>
    let (w, found) := w.lookUp l
    w.remember t (some found)

/-- Serves tasks in order; the world then, and those that go on, the last one served first. -/
def serve : List Task → (waiting : List Task) → World → World × List Task
  | [], waiting, w => (w, waiting)
  | t :: rest, waiting, w =>
    match t.waits with
    | 0 => serve rest waiting (w.finish t)
    | n + 1 => serve rest ({ t with waits := n } :: waiting) w

/-- How many tasks are served in a turn. -/
def turnSize : Nat := 61

/-- The world after a turn. -/
def afterTurn (w : World) : World :=
  let (w, waiting) := serve (w.tasks.take turnSize) [] { w with tasks := w.tasks.drop turnSize }
  { w with tasks := w.tasks ++ waiting }

/-- Whether a task has ended. -/
def hasEnded (w : World) (id : TaskId) : Bool := w.ended.any (·.1 == id)

/-- Whether a wait is over after a turn. -/
def isOver (w : World) (wait : Wait) : Bool := wait.turn || wait.tasks.any w.hasEnded

/-- The most turns that it takes all tasks to end. -/
def workLeft (w : World) : Nat := w.tasks.foldl (fun n t => n + (t.waits + 1)) 0

/-- The world at the end of a wait, or after some turns if it does not end before. -/
def awaitWithin : (turns : Nat) → Wait → World → World
  | 0, _, w => w
  | turns + 1, wait, w =>
    let w := w.afterTurn
    if w.isOver wait then w else awaitWithin turns wait w

/-- The world at the end of a wait. -/
def await (w : World) (wait : Wait) : World := awaitWithin (w.workLeft + 1) wait w

/-- What a task found, if it ended and looked something up. -/
def found? (w : World) (id : TaskId) : Option Found :=
  (w.ended.lookup id).join

/-- The world in which some tasks were given up. -/
def drop (w : World) (ids : List TaskId) : World :=
  { w with tasks := w.tasks.map fun t => if ids.contains t.id then t.givenUp else t
           ended := w.ended.filter fun (id, _) => !ids.contains id }

/-- The world in which every task was given up that somebody waits for. -/
def dropAll (w : World) : World :=
  { w with tasks := w.tasks.map fun t => if t.orphan then t else t.givenUp, ended := [] }

/-- The world in which nobody waits for a task any more. -/
def forsake (w : World) : World :=
  { w with tasks := w.tasks.map fun t => { t with orphan := true }, ended := [] }

end ResumableQuery.World
