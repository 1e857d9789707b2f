import ResumableQuery.Proofs.Cursor.FailingSource

/-!
# Pipelines against their sequential counterparts

Over a source that does not fail, the depth of a pipeline shows in nothing that is handed out.  A
mapping hands out the results of its applications as if each had run before the next was started
(`pipelined_in_order`), and a nested iteration the rows of its inner cursors as if each had been
read before the next was opened (`nested_in_order`), in whatever order the tasks end.

The depth shows in how far the pipeline is ahead of what it has handed out.  To say how far, it is
run in a view that puts a mark where an application is started (`accounted`); without the marks
that is the pipeline again (`results_accounted`).
-/

namespace ResumableQuery.Cursor

variable {S : World → World → Prop} {w : World}

/-! ### Applications that are started -/

/-- What a pipeline does as it goes: it starts an application, or it hands out a result. -/
inductive Activity (β : Type) : Type where
  | start
  | result (value : β)

namespace Activity

/-- Whether an application was started. -/
def isStart : Activity β → Bool
  | start => true
  | result _ => false

/-- How many applications were started. -/
def started (l : List (Activity β)) : Nat := l.countP isStart

/-- How many results were handed out. -/
def delivered (l : List (Activity β)) : Nat := l.countP fun a => !a.isStart

@[simp] theorem started_append_start (l : List (Activity β)) :
    started (l ++ [start]) = started l + 1 :=
  List.countP_append

@[simp] theorem started_append_result (l : List (Activity β)) (u : β) :
    started (l ++ [result u]) = started l :=
  List.countP_append

@[simp] theorem delivered_append_start (l : List (Activity β)) :
    delivered (l ++ [start]) = delivered l :=
  List.countP_append

@[simp] theorem delivered_append_result (l : List (Activity β)) (u : β) :
    delivered (l ++ [result u]) = delivered l + 1 :=
  List.countP_append

end Activity

/-- The results among activities. -/
def results : Cursor (Activity β) → Cursor β
  | row .start _ rest => (rest ()).results
  | row (.result u) t rest => row u t fun _ => (rest ()).results
  | stop r t => stop r t
  | fail e => fail e
  | consult k => consult fun w => (k w).results
  | commit w c => commit w c.results
  | pause wait rest => pause wait fun _ => (rest ()).results

/-- A pipeline is shown with a mark wherever it starts an application. -/
def View.account : View β (Activity β) := ⟨fun t rest => row .start t rest, .result⟩

/-- The activities of a pipeline: all that it hands out, and a mark wherever it starts an
application. -/
def accounted (f : α → Job β) (depth : Nat) (source : Cursor α) : Cursor (Activity β) :=
  pipelineFrom .account f (max 1 depth) [] source

/-! ### Without the marks -/

theorem results_wait (n : Nat) (c : Cursor (Activity β)) :
    (wait n c).results = wait n c.results := by
  induction n with
  | zero => rfl
  | succ n ih => exact congrArg (pause .nextTurn) (funext fun _ => ih)

theorem results_jobRun (job : Job γ) (go : Except CursorError γ → Cursor (Activity β)) :
    (job.run go).results = job.run fun x => (go x).results := by
  cases job with
  | compute n result => exact results_wait n _
  | find => rfl

theorem results_collect (job : Job γ) (id : TaskId)
    (go : Except CursorError γ → Cursor (Activity β)) :
    (job.collect id go).results = job.collect id fun x => (go x).results := by
  cases job with
  | compute => rfl
  | find l result =>
    rw [Job.collect, Job.collect, results]
    refine congrArg consult (funext fun w => ?_)
    cases w.found? id <;> rfl

theorem results_join (flight : Flight γ) (go : Except CursorError γ → Cursor (Activity β)) :
    (flight.join go).results = flight.join fun x => (go x).results := by
  cases flight with
  | inPlace job => exact results_jobRun job go
  | task id job =>
    rw [Flight.join, Flight.join, results]
    refine congrArg consult (funext fun w => ?_)
    split
    · exact results_collect job id go
    · exact congrArg (pause _) (funext fun _ => results_collect job id go)

theorem results_deliver (queue : Queue β Continuation) (ending : Cursor (Activity β))
    (go : Queue β Continuation → Cursor (Activity β)) :
    (deliver .account queue ending go).results =
      deliver .plain queue ending.results fun queue => (go queue).results := by
  cases queue with
  | nil => rfl
  | cons x rest =>
    refine (results_join x.1 _).trans (congrArg _ (funext fun r => ?_))
    cases r <;> rfl

theorem results_flush (ending : Cursor (Activity β)) (count : Nat)
    (queue : Queue β Continuation) :
    (flush .account ending count queue).results = flush .plain ending.results count queue := by
  induction count generalizing queue with
  | zero => rfl
  | succ count ih =>
    refine (results_deliver queue ending _).trans ?_
    exact congrArg _ (funext fun queue => ih queue)

theorem results_stopFor (r : StopReason) (t : Continuation) :
    (stopFor r t : Cursor (Activity β)).results = stopFor r t := by
  unfold stopFor
  split <;> rfl

theorem results_pipelineFrom (f : α → Job β) (depth : Nat) (queue : Queue β Continuation)
    (source : Cursor α) :
    (pipelineFrom .account f depth queue source).results =
      pipelineFrom .plain f depth queue source := by
  induction source generalizing queue with
  | row v t rest ih =>
    refine congrArg consult (funext fun w => congrArg (commit _) ?_)
    simp only [View.account, View.plain, results]
    split
    · exact ih () _
    · refine (results_deliver _ _ _).trans ?_
      exact congrArg _ (funext fun queue => ih () queue)
  | stop r t =>
    refine (results_flush _ _ queue).trans ?_
    rw [results_stopFor]
    rfl
  | fail => rfl
  | consult k ih => exact congrArg consult (funext fun w => ih w queue)
  | commit w c ih => exact congrArg (commit w) (ih queue)
  | pause wait rest ih => exact congrArg (pause wait) (funext fun _ => ih () queue)

/-- Without its marks the account is the pipeline. -/
theorem results_accounted (f : α → Job β) (depth : Nat) (source : Cursor α) :
    (accounted f depth source).results = pipelined f depth source :=
  results_pipelineFrom f _ [] source

/-! ### How far a pipeline is ahead -/

/-- At any moment, whatever the world is, what a cursor has handed out until then satisfies a
predicate.  Before, it has handed out `done`. -/
def Throughout (P : List α → Prop) : List α → Cursor α → Prop
  | done, row v _ rest => P done ∧ Throughout P (done ++ [v]) (rest ())
  | done, stop _ _ => P done
  | done, fail _ => P done
  | done, consult k => ∀ w, Throughout P done (k w)
  | done, commit _ c => Throughout P done c
  | done, pause _ rest => Throughout P done (rest ())

section Waiting

variable {P : List α → Prop} {done : List α} {job : Job γ} {go : Except CursorError γ → Cursor α}

theorem throughout_wait {c : Cursor α} (h : c.Throughout P done) (n : Nat) :
    (wait n c).Throughout P done := by
  induction n with
  | zero => exact h
  | succ n ih => exact ih

theorem throughout_perform {act : World → World × γ} {go : γ → Cursor α}
    (h : ∀ x, (go x).Throughout P done) : (perform act go).Throughout P done :=
  fun w => h (act w).2

theorem throughout_jobRun (h : ∀ x, (go x).Throughout P done) :
    (job.run go).Throughout P done := by
  cases job with
  | compute n result =>
    refine throughout_wait ?_ n
    exact fun w => h (result w)
  | find l result => exact throughout_perform fun found => h (result found)

theorem throughout_collect {id : TaskId} (h : ∀ x, (go x).Throughout P done) :
    (job.collect id go).Throughout P done := by
  cases job with
  | compute n result => exact fun w => h (result w)
  | find l result =>
    intro w
    dsimp only
    split
    · exact h _
    · exact throughout_jobRun h

theorem throughout_join {flight : Flight γ} (h : ∀ x, (go x).Throughout P done) :
    (flight.join go).Throughout P done := by
  cases flight with
  | inPlace job => exact throughout_jobRun h
  | task id job =>
    intro w
    dsimp only
    split <;> exact throughout_collect h

end Waiting

section Ahead

open Activity

variable {depth : Nat} {queue : Queue β Continuation} {done : List (Activity β)}

/-- At most `depth` applications were started beyond those whose results were handed out. -/
def Activity.Bounded (depth : Nat) (done : List (Activity β)) : Prop :=
  started done ≤ delivered done + depth

/-- What was started and not handed out is in the queue, and that is no more than `depth`. -/
theorem bounded_of_queue (hdone : started done = delivered done + queue.length)
    (hlen : queue.length ≤ depth) : Bounded depth done := by
  rw [Bounded, hdone]
  exact Nat.add_le_add_left hlen _

theorem throughout_deliver (hdone : started done = delivered done + queue.length)
    (hlen : queue.length ≤ depth) {ending : Cursor (Activity β)}
    {go : Queue β Continuation → Cursor (Activity β)}
    (hending : queue = [] → ending.Throughout (Bounded depth) done)
    (hgo : ∀ done' rest, started done' = delivered done' + rest.length →
      rest.length + 1 = queue.length → (go rest).Throughout (Bounded depth) done') :
    (deliver .account queue ending go).Throughout (Bounded depth) done := by
  have hbounded := bounded_of_queue hdone hlen
  cases queue with
  | nil => exact hending rfl
  | cons x rest =>
    refine throughout_join fun r => ?_
    cases r with
    | ok u =>
      refine ⟨hbounded, hgo (done ++ [.result u]) rest ?_ rfl⟩
      rw [started_append_result, delivered_append_result, hdone, List.length_cons]
      omega
    | error e => exact fun _ => hbounded

theorem throughout_flush (hdone : started done = delivered done + queue.length)
    (hlen : queue.length ≤ depth) {ending : Cursor (Activity β)}
    (hending : ∀ done, Bounded depth done → ending.Throughout (Bounded depth) done) (count : Nat) :
    (flush .account ending count queue).Throughout (Bounded depth) done := by
  induction count generalizing queue done with
  | zero => exact hending _ (bounded_of_queue hdone hlen)
  | succ count ih =>
    refine throughout_deliver hdone hlen (fun _ => ?_) fun done' rest hdone' hrest => ?_
    · exact hending _ (bounded_of_queue hdone hlen)
    · exact ih hdone' (by omega)

theorem throughout_stopFor {P : List α → Prop} {done : List α} (h : P done) (r : StopReason)
    (t : Continuation) : (stopFor r t).Throughout P done := by
  unfold stopFor
  split <;> exact h

/-- A pipeline has started those that it has handed out and those in its queue, so where the queue
is bounded so is the lead. -/
theorem throughout_pipelineFrom {f : α → Job β} {source : Cursor α}
    (hdone : started done = delivered done + queue.length) (hlen : queue.length < depth) :
    (pipelineFrom .account f depth queue source).Throughout (Bounded depth) done := by
  have hbounded := bounded_of_queue hdone (Nat.le_of_lt hlen)
  induction source generalizing queue done with
  | row v t rest ih =>
    refine throughout_perform fun flight => ⟨hbounded, ?_⟩
    have hdone' : started (done ++ [.start]) =
        delivered (done ++ [.start]) + (queue ++ [(flight, t)]).length := by
      rw [started_append_start, delivered_append_start, hdone, List.length_append,
        List.length_singleton, Nat.add_assoc]
    have hlen' : (queue ++ [(flight, t)]).length ≤ depth := by
      rw [List.length_append, List.length_singleton]
      exact hlen
    dsimp only
    split
    · exact ih () hdone' ‹_› (bounded_of_queue hdone' hlen')
    · refine throughout_deliver hdone' hlen' (fun hnil => ?_) fun done'' rest hd hrest => ?_
      · exact absurd hnil (List.concat_ne_nil _ _)
      · exact ih () hd (by omega) (bounded_of_queue hd (by omega))
  | stop r t =>
    exact throughout_flush hdone (Nat.le_of_lt hlen) (fun _ h => throughout_stopFor h r t) _
  | fail e => exact fun _ => hbounded
  | consult k ih => exact fun w => ih w hdone hlen hbounded
  | commit w c ih => exact ih hdone hlen hbounded
  | pause wait rest ih => exact ih () hdone hlen hbounded

end Ahead

/-! ### The order of what is handed out -/

/-- Over a source that does not fail, a mapping of any depth comes to the results of its
applications in the order of their rows, each at the continuation of its row, up to the first that
fails; if none fails it then stops where the source does.  A depth of zero counts as one.  All the
while at most `depth` applications were started beyond the results that were handed out. -/
theorem pipelined_in_order (hS : World.Passage S) {source : Cursor α} {P : Outcome α → Prop}
    (hsource : source.Promises S w P) (hstops : ∀ o, P o → ∃ rows r t, o = (rows, .stopped r t))
    {f : α → Job β} {g : α → Except CursorError β}
    (hf : ∀ o, P o → ∀ x ∈ o.1, (f x.1).Gives S w (· = g x.1)) (depth : Nat) :
    ((pipelined f depth source).Promises S w fun o => ∃ rows r t, P (rows, .stopped r t) ∧
      o = mapped (rows.map fun x => (g x.1, x.2)) ((Ending.stopped r t).settled id)) ∧
    (accounted f depth source).results = pipelined f depth source ∧
    (accounted f depth source).Throughout (Activity.Bounded (max 1 depth)) [] := by
  refine ⟨?_, results_accounted f depth source, throughout_pipelineFrom rfl (Nat.le_max_left _ _)⟩
  refine (promises_pipelined hS hsource hf depth).mono ?_
  rintro o ⟨o', ho', rfl⟩
  obtain ⟨rows, r, t, rfl⟩ := hstops o' ho'
  exact ⟨rows, r, t, ho', rfl⟩

/-- What comes of the numbers one and two as a list. -/
def sampleListed : Outcome Nat := (sampleBefore, .stopped .sourceExhausted .done)

theorem promises_sampleListed :
    (ofList [1, 2]).Promises (fun _ _ => True) .empty (· = sampleListed) := by
  intro _ _ _ _
  rfl

/-- Takes longer for smaller numbers, and fails for two. -/
def sampleFaulty (i : Nat) : Job Nat :=
  .compute (3 - i) fun _ => if i = 2 then .error (.argument "boom") else .ok (10 * i)

theorem pipelined_in_order_sample :
    ((pipelined sampleFaulty 3 (ofList [1, 2])).run .empty).2 =
      ([(10, (ListPosition.mk 1).toContinuation)], .failed (.argument "boom")) ∧
    (accounted sampleFaulty 3 (ofList [1, 2])).Throughout (Activity.Bounded 3) [] := by
  obtain ⟨hpromises, -, hbounded⟩ := pipelined_in_order World.passage_any
    (P := (· = sampleListed)) promises_sampleListed (fun _ h => ⟨_, _, _, h⟩)
    (f := sampleFaulty) (g := fun i => if i = 2 then .error (.argument "boom") else .ok (10 * i))
    (fun _ _ _ _ _ _ => rfl) 3
  obtain ⟨rows, r, t, hrows, hrun⟩ := hpromises.run World.passage_any
  cases hrows
  exact ⟨hrun, hbounded⟩

/-- Where inner cursors have one outcome each, so has what they come to one after the other. -/
theorem Drains.unique {Q : α → Continuation → Outcome β → Prop}
    (hQ : ∀ v s o o', Q v s o → Q v s o' → o = o') {xs : List (Opening α)} {e : Ending}
    {o o' : Outcome β} (h : Drains Q xs e o) (h' : Drains Q xs e o') : o = o' := by
  induction h generalizing o' with
  | nil =>
    cases h'
    rfl
  | limit inner isLimit =>
    cases h' with
    | limit inner' => cases hQ _ _ _ _ inner inner'; rfl
    | failed inner' => cases hQ _ _ _ _ inner inner'
    | next inner' dry => cases hQ _ _ _ _ inner inner'; rw [isLimit] at dry; cases dry
  | failed inner =>
    cases h' with
    | limit inner' => cases hQ _ _ _ _ inner inner'
    | failed inner' => cases hQ _ _ _ _ inner inner'; rfl
    | next inner' => cases hQ _ _ _ _ inner inner'
  | next inner dry _ ih =>
    cases h' with
    | limit inner' isLimit => cases hQ _ _ _ _ inner inner'; rw [dry] at isLimit; cases isLimit
    | failed inner' => cases hQ _ _ _ _ inner inner'
    | next inner' _ rest' => cases hQ _ _ _ _ inner inner'; rw [ih rest']

/-- Over an outer cursor that does not fail, a nested iteration that starts at the beginning keeps
all inner cursors. -/
theorem exists_promises_start (hS : World.Passage S) (n : Nesting α β)
    {openOuter : Continuation → Except CursorError (Cursor α)} {source : Cursor α}
    (hopen : openOuter .start = .ok source) {P : Outcome α → Prop} (hsource : source.Promises S w P)
    (hstops : ∀ o, P o → ∃ rows r t, o = (rows, .stopped r t)) {Q : α → Outcome β → Prop}
    (hinner : ∀ o, P o → ∀ x ∈ o.1,
      (n.openInner x.1 .start).Gives S w (OpensAs S w (Q x.1))) :
    ∃ cur, n.openAt openOuter .start = .ok cur ∧ cur.Promises S w fun o =>
      ∃ rows r t, P (rows, .stopped r t) ∧
        Drains (fun v _ => Q v) (openings n.check none .start rows)
          ((Ending.stopped r t).settled OuterValue.atLimit) o := by
  have hresume : Nesting.resume .start = .ok (.start, none) := rfl
  have hjobs : ∀ o, P o → ∀ x ∈ openings n.check none .start o.1,
      (n.openInner x.value x.start).Gives S w (OpensAs S w (Q x.value)) := by
    intro o ho x hx
    obtain ⟨t, ht⟩ := exists_mem_of_mem_openings hx
    rw [start_of_mem_openings hx]
    exact hinner o ho _ ht
  obtain ⟨cur, hcur, hpromises⟩ := exists_promises_openAt hS (Q := fun v _ => Q v) hresume
    (by decide) hopen hsource hjobs
  refine ⟨cur, hcur, hpromises.mono ?_⟩
  rintro o ⟨o', ho', hdrains⟩
  obtain ⟨rows, r, t, rfl⟩ := hstops o' ho'
  exact ⟨rows, r, t, ho', hdrains⟩

/-- Over an outer cursor that does not fail, a nested iteration of any depth that starts at the
beginning comes to the rows of its inner cursors in the order of the outer rows, up to the first
inner cursor that stops for a limit or fails; if none does it then stops where the outer cursor
does.  An inner cursor that cannot be opened counts as one that fails at once, and a depth of zero
as one.  Where the outer cursor and the inner ones have one outcome each, the iteration has one
outcome, and it is the same for all depths. -/
theorem nested_in_order (hS : World.Passage S) {n : Nesting α β}
    {openOuter : Continuation → Except CursorError (Cursor α)} {source : Cursor α}
    (hopen : openOuter .start = .ok source) {P : Outcome α → Prop} (hsource : source.Promises S w P)
    (hstops : ∀ o, P o → ∃ rows r t, o = (rows, .stopped r t)) {Q : α → Outcome β → Prop}
    (hinner : ∀ o, P o → ∀ x ∈ o.1,
      (n.openInner x.1 .start).Gives S w (OpensAs S w (Q x.1))) :
    (∀ depth, ∃ cur, ({ n with depth := depth } : Nesting α β).openAt openOuter .start = .ok cur ∧
      cur.Promises S w fun o => ∃ rows r t, P (rows, .stopped r t) ∧
        Drains (fun v _ => Q v) (openings n.check none .start rows)
          ((Ending.stopped r t).settled OuterValue.atLimit) o) ∧
    ((∀ o o', P o → P o' → o = o') → (∀ v o o', Q v o → Q v o' → o = o') →
      ∃ o, ∀ depth, ∃ cur,
        ({ n with depth := depth } : Nesting α β).openAt openOuter .start = .ok cur ∧
          cur.Promises S w (· = o)) := by
  have hall (depth : Nat) :=
    exists_promises_start hS { n with depth := depth } hopen hsource hstops hinner
  refine ⟨hall, fun hP hQ => ?_⟩
  obtain ⟨_, -, hone⟩ := hall 1
  obtain ⟨o, rows, r, t, ho, hdrains⟩ := hone.exists_outcome hS
  refine ⟨o, fun depth => ?_⟩
  obtain ⟨cur, hcur, hpromises⟩ := hall depth
  refine ⟨cur, hcur, hpromises.mono ?_⟩
  rintro o' ⟨rows', r', t', ho', hdrains'⟩
  cases hP _ _ ho ho'
  exact hdrains'.unique (fun v _ => hQ v) hdrains

theorem nested_in_order_sample :
    ∃ o, o.1.map Prod.fst = [10, 11, 20, 21] ∧ ∀ depth, ∃ cur,
      (sampleNesting depth).openAt (list [1, 2]) .start = .ok cur ∧ (cur.run .empty).2 = o := by
  have hopen : list [1, 2] .start = .ok (ofList [1, 2]) := rfl
  obtain ⟨hall, hone⟩ := nested_in_order World.passage_any (n := sampleNesting 1) hopen
    (P := (· = sampleListed)) promises_sampleListed (fun _ h => ⟨_, _, _, h⟩)
    (Q := fun i => (· = outcomeOfList [10 * i, 10 * i + 1] .start))
    (fun _ _ _ _ _ _ _ _ _ _ _ _ => rfl)
  obtain ⟨o, ho⟩ := hone (fun _ _ h h' => h.trans h'.symm) (fun _ _ _ h h' => h.trans h'.symm)
  refine ⟨o, ?_, fun depth => ?_⟩
  · obtain ⟨cur, hcur, hpromises⟩ := hall 2
    obtain ⟨cur', hcur', hpromises'⟩ := ho 2
    cases hcur.symm.trans hcur'
    obtain ⟨rows, r, t, hrows, hdrains⟩ := hpromises.run World.passage_any
    cases hrows
    rw [← hpromises'.run World.passage_any, hdrains.eq_drained]
    decide
  · obtain ⟨cur, hcur, hpromises⟩ := ho depth
    exact ⟨cur, hcur, hpromises.run World.passage_any⟩

end ResumableQuery.Cursor
