import ResumableQuery.Cursor.Adapter
import ResumableQuery.Cursor.Source
import ResumableQuery.Proofs.Cursor.Pipelining

/-!
# Sources that fail

A source that hands out some rows and then fails is read ahead by a pipeline up to its depth.  The
failure is reported as soon as the pipeline comes upon it, so of `n` rows only the first
`n + 1 - depth` come through (`run_of_failing_source`): with a depth of one all of them do, and each
further step of depth loses one.  So the depth of a pipeline shows after all (`run_ne_of_depth`).
-/

namespace ResumableQuery.Cursor

variable {S : World → World → Prop} {w : World}

/-- What comes of an inner cursor, before what comes of those that are opened after it. -/
def Opening.precede (x : Opening α) (inner o : Outcome β) : Outcome β :=
  match inner.2 with
  | .stopped r t =>
    if r.isLimit then (x.outer.place inner.1, .stopped r (x.outer.position t))
    else (x.outer.place inner.1 ++ o.1, o.2)
  | .failed e => (x.outer.place inner.1, .failed e)

/-- The rows of inner cursors one after the other, up to the first one that stops for a limit or
fails, and then an end. -/
def drained (rowsOf : α → Continuation → Outcome β) (xs : List (Opening α)) (e : Ending) :
    Outcome β :=
  xs.foldr (fun x => x.precede (rowsOf x.value x.start)) ([], e)

theorem Drains.eq_drained {rowsOf : α → Continuation → Outcome β} {xs : List (Opening α)}
    {e : Ending} {o : Outcome β} (h : Drains (fun v s o => o = rowsOf v s) xs e o) :
    o = drained rowsOf xs e := by
  induction h with
  | nil => rfl
  | @limit x xs _ _ _ _ inner isLimit =>
    rw [drained, List.foldr_cons, ← inner]
    simp only [Opening.precede, isLimit, if_true]
  | failed inner =>
    rw [drained, List.foldr_cons, ← inner]
    rfl
  | next inner dry _ ih =>
    rw [drained, List.foldr_cons, ← inner, ih]
    simp only [Opening.precede, dry, Bool.false_eq_true, if_false]
    rfl

theorem length_openings (check : Option (α → Bytes)) (recorded : Recorded) (outer : Continuation)
    (rows : List (α × Continuation)) :
    (openings check recorded outer rows).length = rows.length := by
  induction rows generalizing recorded outer with
  | nil => rfl
  | cons x rows ih => exact congrArg Nat.succ (ih none x.2)

/-- Over a source that hands out some rows and then fails, a mapping of some depth hands out the
results of as many rows as leave room for the others in its queue, in their order, and then the
failure; and a nested iteration the rows of as many inner cursors.  A depth of zero counts as one,
and at a depth of one nothing is lost. -/
theorem run_of_failing_source (hS : World.Passage S) (w : World) :
    (∀ {α β : Type} (source : Cursor α) (rows : List (α × Continuation)) (e : CursorError)
      (f : α → Job β) (g : α → Except CursorError β),
      source.Promises S w (· = (rows, .failed e)) →
      (∀ x ∈ rows, (f x.1).Gives S w (· = g x.1)) →
      ∀ depth, ((pipelined f depth source).run w).2 =
        mapped ((rows.take (rows.length + 1 - max 1 depth)).map fun x => (g x.1, x.2))
          (.failed e)) ∧
    ∀ {α β : Type} (n : Nesting α β) (openOuter : Continuation → Except CursorError (Cursor α))
      (c u : Continuation) (recorded : Recorded) (source : Cursor α)
      (rows : List (α × Continuation)) (e : CursorError) (rowsOf : α → Continuation → Outcome β),
      Nesting.resume c = .ok (u, recorded) → u ≠ .done → openOuter u = .ok source →
      source.Promises S w (· = (rows, .failed e)) →
      (∀ x ∈ openings n.check recorded u rows, (n.openInner x.value x.start).Gives S w
        (OpensAs S w (· = rowsOf x.value x.start))) →
      ∃ cur, n.openAt openOuter c = .ok cur ∧ (cur.run w).2 =
        drained rowsOf ((openings n.check recorded u rows).take (rows.length + 1 - max 1 n.depth))
          (.failed e) := by
  constructor
  · intro α β source rows e f g hsource hf depth
    rw [run_pipelined hS hsource hf depth, kept, List.length_map, List.map_take]
    rfl
  · intro α β n openOuter c u recorded source rows e rowsOf hresume hu hopen hsource hjobs
    have hjobs' : ∀ o, o = (rows, Ending.failed e) → ∀ x ∈ openings n.check recorded u o.1,
        (n.openInner x.value x.start).Gives S w (OpensAs S w (· = rowsOf x.value x.start)) := by
      rintro _ rfl
      exact hjobs
    obtain ⟨cur, hcur, _, rfl, hdrains⟩ :=
      exists_run_openAt hS (Q := fun v s o => o = rowsOf v s) hresume hu hopen hsource hjobs'
    rw [kept, length_openings] at hdrains
    exact ⟨cur, hcur, hdrains.eq_drained⟩

/-! ### A list that ends in a failure -/

/-- Two numbers, and then a failure. -/
def sampleFailing : Cursor Nat :=
  (ofList [1, 2, 3]).tryMap fun i => if i = 3 then .error (.argument "boom") else .ok i

/-- Takes longer for smaller numbers. -/
def sampleJob (i : Nat) : Job Nat := .compute (3 - i) fun _ => .ok (10 * i)

/-- Two numbers for each number. -/
def sampleNesting (depth : Nat) : Nesting Nat Nat where
  openInner i c := .compute (3 - i) fun _ => list [10 * i, 10 * i + 1] c
  check := none
  depth := depth

/-- The outcome of a list that is opened at a continuation. -/
def outcomeOfList (l : List α) (c : Continuation) : Outcome α :=
  match list l c with
  | .ok rows => (rows.run .empty).2
  | .error e => ([], .failed e)

/-- The rows before the failure. -/
def sampleBefore : List (Nat × Continuation) :=
  [(1, (ListPosition.mk 1).toContinuation), (2, (ListPosition.mk 2).toContinuation)]

theorem promises_sampleFailing : sampleFailing.Promises (fun _ _ => True) .empty
    (· = (sampleBefore, .failed (.argument "boom"))) := by
  intro _ _ _ _
  rfl

theorem run_of_failing_source_sample :
    ((pipelined sampleJob 2 sampleFailing).run .empty).2.1.map Prod.fst = [10] ∧
      ∃ cur, (sampleNesting 2).openAt (fun _ => .ok sampleFailing) .start = .ok cur ∧
        (cur.run .empty).2.1.map Prod.fst = [10, 11] := by
  obtain ⟨hmap, hnested⟩ := run_of_failing_source World.passage_any .empty
  have hmapped := hmap sampleFailing _ _ sampleJob (fun i => .ok (10 * i)) promises_sampleFailing
    (fun _ _ _ _ => rfl) 2
  have hopens : ∀ x ∈ openings (sampleNesting 2).check none .start sampleBefore,
      ((sampleNesting 2).openInner x.value x.start).Gives (fun _ _ => True) .empty
        (OpensAs (fun _ _ => True) .empty
          (· = outcomeOfList [10 * x.value, 10 * x.value + 1] x.start)) := by
    have hstart : ∀ x ∈ openings (sampleNesting 2).check none .start sampleBefore,
        x.start = .start := by decide
    intro x hx w _
    rw [hstart x hx]
    intro _ _ _ _ _ _
    rfl
  obtain ⟨cur, hcur, hrun⟩ := hnested (sampleNesting 2) (fun _ => .ok sampleFailing) .start .start
    none sampleFailing _ _ (fun i => outcomeOfList [10 * i, 10 * i + 1]) rfl (by decide) rfl
    promises_sampleFailing hopens
  refine ⟨?_, cur, hcur, ?_⟩
  · rw [hmapped]
    rfl
  · rw [hrun]
    rfl

/-- A greater depth makes rows disappear that come before the failure of the source. -/
theorem run_ne_of_depth :
    ((pipelined sampleJob 1 sampleFailing).run .empty).2.1.map Prod.fst = [10, 20] ∧
      ((pipelined sampleJob 2 sampleFailing).run .empty).2.1.map Prod.fst = [10] ∧
      (((sampleNesting 1).rows none .start [] sampleFailing).run .empty).2.1.map Prod.fst =
        [10, 11, 20, 21] ∧
      (((sampleNesting 2).rows none .start [] sampleFailing).run .empty).2.1.map Prod.fst =
        [10, 11] := by
  refine ⟨?_, ?_, ?_, ?_⟩ <;> decide

end ResumableQuery.Cursor
