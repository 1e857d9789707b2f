import ResumableQuery.Cursor.Pipelined

/-!
# What a cursor promises

A cursor is read in a world that others change too: its caller between two rows, tasks while it
pauses, and the cursors that run beside it.  `Promises` says what comes of it all the same: all
outcomes that it can have, whatever happens in between, satisfy a predicate.  What may happen in
between is a relation of worlds, and the cursor itself does no more than that to the world
(`Passage`).

An application gives a result of a kind if it does so in all worlds that can be reached
(`Job.Gives`).  That carries over to the pipeline that the application was handed to, whether it
runs there in place or as a task (`gives_start`), so whoever waits for it can go on with a result of
that kind (`promises_join`).
-/

namespace ResumableQuery

/-- What may happen to the world while a cursor is open: it goes on from where it is, and starting,
giving up and awaiting tasks is part of it. -/
structure World.Passage (S : World → World → Prop) : Prop where
  refl (w) : S w w
  trans {w₁ w₂ w₃} : S w₁ w₂ → S w₂ w₃ → S w₁ w₃
  start (w waits lookup) : S w (w.start waits lookup).1
  drop (w ids) : S w (w.drop ids)
  await (w wait) : S w (w.await wait)

/-- Anything may happen. -/
theorem World.passage_any : Passage fun _ _ => True :=
  ⟨fun _ => trivial, fun _ _ => trivial, fun _ _ _ => trivial, fun _ _ => trivial,
    fun _ _ => trivial⟩

namespace Cursor

/-- What a cursor hands out in the end: its rows with their continuations, and how it ends. -/
abbrev Outcome (α : Type) : Type := List (α × Continuation) × Ending

variable {S : World → World → Prop} {w w' : World}

/-- Whatever may happen in between, the cursor comes to an outcome that satisfies `P` when it is
read from a world on. -/
def Promises (S : World → World → Prop) : Cursor α → World → (Outcome α → Prop) → Prop
  | row v t rest, w, P => ∀ w', S w w' → (rest ()).Promises S w' fun o => P ((v, t) :: o.1, o.2)
  | stop r t, _, P => P ([], .stopped r t)
  | fail e, _, P => P ([], .failed e)
  | consult k, w, P => (k w).Promises S w P
  | commit w' c, w, P => S w w' ∧ c.Promises S w' P
  | pause _ rest, w, P => ∀ w', S w w' → (rest ()).Promises S w' P

section Rules

variable {c : Cursor α} {P Q : Outcome α → Prop}

theorem promises_consult {k : World → Cursor α} :
    (consult k).Promises S w P ↔ (k w).Promises S w P :=
  .rfl

theorem Promises.mono (h : c.Promises S w P) (hPQ : ∀ o, P o → Q o) : c.Promises S w Q := by
  induction c generalizing w P Q with
  | row v t rest ih =>
    intro w' hw
    exact ih () (h w' hw) fun o => hPQ _
  | stop | fail => exact hPQ _ h
  | consult k ih => exact ih w h hPQ
  | commit w' c ih => exact ⟨h.1, ih h.2 hPQ⟩
  | pause wait rest ih =>
    intro w' hw
    exact ih () (h w' hw) hPQ

theorem Promises.and (h : c.Promises S w P) (k : c.Promises S w Q) :
    c.Promises S w fun o => P o ∧ Q o := by
  induction c generalizing w P Q with
  | row v t rest ih =>
    intro w' hw
    exact ih () (h w' hw) (k w' hw)
  | stop | fail => exact ⟨h, k⟩
  | consult next ih => exact ih w h k
  | commit w' c ih => exact ⟨h.1, ih h.2 k.2⟩
  | pause wait rest ih =>
    intro w' hw
    exact ih () (h w' hw) (k w' hw)

/-- What is promised is so when the cursor is read to its end. -/
theorem Promises.run (hS : World.Passage S) (h : c.Promises S w P) : P (c.run w).2 := by
  induction c generalizing w P with
  | row v t rest ih => exact ih () (h w (hS.refl w))
  | stop | fail => exact h
  | consult k ih => exact ih w h
  | commit w' c ih => exact ih h.2
  | pause wait rest ih => exact ih () (h _ (hS.await w wait))

theorem Promises.exists_outcome (hS : World.Passage S) (h : c.Promises S w P) : ∃ o, P o :=
  ⟨_, h.run hS⟩

theorem promises_wait (hS : World.Passage S) (h : ∀ w', S w w' → c.Promises S w' P) (n : Nat) :
    (wait n c).Promises S w P := by
  induction n generalizing w with
  | zero => exact h w (hS.refl w)
  | succ n ih =>
    intro w' hw
    exact ih fun w'' hw' => h w'' (hS.trans hw hw')

theorem promises_perform {act : World → World × β} {go : β → Cursor α} (hact : S w (act w).1)
    (h : (go (act w).2).Promises S (act w).1 P) : (perform act go).Promises S w P :=
  ⟨hact, h⟩

end Rules

/-! ### Applications -/

/-- In all worlds that can be reached, the application gives a result of a kind: when it runs, and
when a task for it has run that was started there. -/
def Job.Gives (S : World → World → Prop) (w : World) (X : Except CursorError β → Prop) :
    Job β → Prop
  | compute _ result => ∀ w', S w w' → X (result w')
  | find l result => ∀ w', S w w' → S w' (w'.lookUp l).1 ∧ X (result (w'.lookUp l).2) ∧
      ∀ w'', S (w'.start 0 (some l)).1 w'' → ∀ found, w''.found? w'.nextTask = some found →
        X (result found)

/-- In all worlds that can be reached, what the task has found gives a result of a kind. -/
def Job.FindsAs (S : World → World → Prop) (w : World) (X : Except CursorError β → Prop)
    (id : TaskId) : Job β → Prop
  | compute _ _ => True
  | find _ result => ∀ w', S w w' → ∀ found, w'.found? id = some found → X (result found)

/-- In all worlds that can be reached, the application that was handed over gives a result of a
kind. -/
def Flight.Gives (S : World → World → Prop) (w : World) (X : Except CursorError β → Prop) :
    Flight β → Prop
  | inPlace job => job.Gives S w X
  | task id job => job.Gives S w X ∧ job.FindsAs S w X id

section Applications

variable {X : Except CursorError β → Prop} {job : Job β} {flight : Flight β}
  {go : Except CursorError β → Cursor γ} {P : Outcome γ → Prop} (hS : World.Passage S)

include hS

theorem Job.Gives.later (h : job.Gives S w X) (hw : S w w') : job.Gives S w' X := by
  cases job with
  | compute => exact fun w'' hw' => h w'' (hS.trans hw hw')
  | find => exact fun w'' hw' => h w'' (hS.trans hw hw')

theorem Flight.Gives.later (h : flight.Gives S w X) (hw : S w w') : flight.Gives S w' X := by
  cases flight with
  | inPlace job => exact Job.Gives.later hS h hw
  | task id job =>
    refine ⟨Job.Gives.later hS h.1 hw, ?_⟩
    cases job with
    | compute => trivial
    | find => exact fun w'' hw' => h.2 w'' (hS.trans hw hw')

theorem gives_start (h : job.Gives S w X) (depth : Nat) :
    S w (Flight.start depth job w).1 ∧
      (Flight.start depth job w).2.Gives S (Flight.start depth job w).1 X := by
  unfold Flight.start
  split
  · exact ⟨hS.refl w, h⟩
  · refine ⟨hS.start _ _ _, Job.Gives.later hS h (hS.start _ _ _), ?_⟩
    cases job with
    | compute => trivial
    | find l result => exact fun w' hw => (h w (hS.refl w)).2.2 w' hw

theorem promises_jobRun (h : job.Gives S w X)
    (hgo : ∀ x, X x → ∀ w', S w w' → (go x).Promises S w' P) : (job.run go).Promises S w P := by
  cases job with
  | compute n result =>
    exact promises_wait hS (fun w' hw => hgo _ (h w' hw) w' hw) n
  | find l result =>
    obtain ⟨hlook, hx, -⟩ := h w (hS.refl w)
    exact ⟨hlook, hgo _ hx _ hlook⟩

theorem promises_collect {id : TaskId} (h : job.Gives S w X) (hfinds : job.FindsAs S w X id)
    (hgo : ∀ x, X x → ∀ w', S w w' → (go x).Promises S w' P) :
    (job.collect id go).Promises S w P := by
  have hdrop := hS.drop w [id]
  cases job with
  | compute n result => exact ⟨hdrop, hgo _ (h w (hS.refl w)) _ hdrop⟩
  | find l result =>
    rw [Job.collect, promises_consult]
    cases hfound : w.found? id with
    | some found => exact ⟨hdrop, hgo _ (hfinds w (hS.refl w) found hfound) _ hdrop⟩
    | none => exact promises_jobRun hS h hgo

/-- Waiting for an application goes on with a result of the kind that it gives. -/
theorem promises_join (h : flight.Gives S w X)
    (hgo : ∀ x, X x → ∀ w', S w w' → (go x).Promises S w' P) :
    (flight.join go).Promises S w P := by
  cases flight with
  | inPlace job => exact promises_jobRun hS h hgo
  | task id job =>
    rw [Flight.join, promises_consult]
    split
    · exact promises_collect hS h.1 h.2 hgo
    · intro w' hw
      obtain ⟨hjob, hfinds⟩ : (Flight.task id job).Gives S w' X := Flight.Gives.later hS h hw
      exact promises_collect hS hjob hfinds fun x hx w'' hw' => hgo x hx w'' (hS.trans hw hw')

end Applications

theorem promises_failWith (hS : World.Passage S) {P : Outcome γ → Prop} {queue : Queue β κ}
    {e : CursorError} (h : P ([], .failed e)) : (failWith queue e : Cursor γ).Promises S w P :=
  promises_perform (hS.drop w _) h

end Cursor

end ResumableQuery
