import ResumableQuery.Cursor.Basic

/-!
# Pipelined mapping

A row may be mapped by an application that takes time.  With a depth of one, applications run one
after the other, each when its result is asked for.  With a greater depth, up to that many are under
way as tasks: they are started as rows come in, go on while the cursor waits for any of them, and
are handed out in the order of their rows.
-/

namespace ResumableQuery.Cursor

/-- An application: it either lets some turns pass and then has its result, or it looks up the
record of a hit. -/
inductive Job (β : Type) : Type where
  | compute (turns : Nat) (result : World → Except CursorError β)
  | find (lookup : Lookup) (result : Found → Except CursorError β)

namespace Job

/-- How many turns a task for the application lets pass. -/
def turns : Job β → Nat
  | compute n _ => n
  | find _ _ => 0

/-- What a task for the application looks up. -/
def lookup? : Job β → Option Lookup
  | compute _ _ => none
  | find l _ => some l

/-- Runs the application and goes on with its result. -/
def run (job : Job β) (go : Except CursorError β → Cursor γ) : Cursor γ :=
  match job with
  | compute n result => wait n <| consult fun w => go (result w)
  | find l result => perform (·.lookUp l) fun found => go (result found)

/-- Goes on with the result of the application, which a task has run. -/
def collect (job : Job β) (id : TaskId) (go : Except CursorError β → Cursor γ) : Cursor γ :=
  match job with
  | compute _ result => consult fun w => commit (w.drop [id]) (go (result w))
  | find l result => consult fun w =>
    match w.found? id with
    | some found => commit (w.drop [id]) (go (result found))
    | none => (find l result).run go

end Job

/-- An application that was handed over to a pipeline. -/
inductive Flight (β : Type) : Type where
  /-- Runs when its result is asked for. -/
  | inPlace (job : Job β)
  /-- Runs as a task. -/
  | task (id : TaskId) (job : Job β)

namespace Flight

/-- Hands an application over to a pipeline of some depth. -/
def start (depth : Nat) (job : Job β) (w : World) : World × Flight β :=
  if depth ≤ 1 then (w, inPlace job)
  else
    let (w, id) := w.start job.turns job.lookup?
    (w, task id job)

/-- The task that runs the application. -/
def task? : Flight β → Option TaskId
  | inPlace _ => none
  | task id _ => some id

/-- Waits for the application and goes on with its result. -/
def join (flight : Flight β) (go : Except CursorError β → Cursor γ) : Cursor γ :=
  match flight with
  | inPlace job => job.run go
  | task id job => consult fun w =>
    if w.hasEnded id then job.collect id go else pause (.task id) fun _ => job.collect id go

end Flight

/-- The applications under way, oldest first, each with what it was started for. -/
abbrev Queue (β κ : Type) : Type := List (Flight β × κ)

/-- Fails, and gives up the applications under way. -/
def failWith (queue : Queue β κ) (e : CursorError) : Cursor γ :=
  perform (fun w => (w.drop (queue.filterMap (·.1.task?)), ())) fun _ => fail e

/-- What a pipeline shows of its work. -/
structure View (β γ : Type) : Type where
  /-- Comes before all that follows the start of an application, for the continuation of its row. -/
  started : Continuation → (Unit → Cursor γ) → Cursor γ
  /-- What is handed out for a result. -/
  result : β → γ

/-- Results are handed out as they are, and nothing else is shown. -/
def View.plain : View β β := ⟨fun _ rest => rest (), id⟩

/-- Hands out the result of the oldest application and goes on with the queue without it. -/
def deliver (view : View β γ) (queue : Queue β Continuation) (ending : Cursor γ)
    (go : Queue β Continuation → Cursor γ) : Cursor γ :=
  match queue with
  | [] => ending
  | (flight, token) :: rest =>
    flight.join fun
      | .ok u => row (view.result u) token fun _ => go rest
      | .error e => failWith rest e

/-- The results of the applications under way, and then an end. -/
def flush (view : View β γ) (ending : Cursor γ) :
    (count : Nat) → Queue β Continuation → Cursor γ
  | 0, _ => ending
  | count + 1, queue => deliver view queue ending (flush view ending count)

/-- The rows of a cursor mapped by applications, of which fewer than `depth` are under way. -/
def pipelineFrom (view : View β γ) (f : α → Job β) (depth : Nat)
    (queue : Queue β Continuation) : Cursor α → Cursor γ
  | row v t rest => perform (Flight.start depth (f v)) fun flight =>
    view.started t fun _ =>
      let queue := queue ++ [(flight, t)]
      if queue.length < depth then pipelineFrom view f depth queue (rest ())
      else deliver view queue exhausted fun queue => pipelineFrom view f depth queue (rest ())
  | stop r t => flush view (stopFor r t) queue.length queue
  | fail e => failWith queue e
  | consult k => consult fun w => pipelineFrom view f depth queue (k w)
  | commit w c => commit w (pipelineFrom view f depth queue c)
  | pause wait rest => pause wait fun _ => pipelineFrom view f depth queue (rest ())

/-- Each row mapped by an application, with at most `depth` of them under way; a depth of zero
counts as one. -/
def pipelined (f : α → Job β) (depth : Nat) (source : Cursor α) : Cursor β :=
  pipelineFrom .plain f (max 1 depth) [] source

end ResumableQuery.Cursor
