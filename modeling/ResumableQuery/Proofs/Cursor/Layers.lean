import ResumableQuery.Proofs.Cursor.Follows

/-!
# Cursors in layers

A cursor that is put on another one asks it for rows, and closes it.  Mapping and filtering leave the
state towards the caller to the cursor below.  A mapping that may fail and a bound on the number of
rows keep a state of their own; at a limit the cursor below is closed while the one above repeats its
end.  All other cursors keep their own state and do not ask again what has ended below them.

`Layered` is such a cursor with the state of every layer, and `Answers` says what asking the top layer
does to all of them.  Towards the caller the layers are the one cursor that they make together: asked
for a row they answer, and what they answer is the reply of that cursor (`Answers.tells`).
-/

namespace ResumableQuery

namespace CursorResult

/-- The result with its row transformed. -/
def map (f : α → β) : CursorResult α → CursorResult β
  | next v t => next (f v) t
  | stopped r t => stopped r t

/-- The result with its row transformed by a function that may fail. -/
def tryMap (f : α → Except CursorError β) : CursorResult α → Except CursorError (CursorResult β)
  | next v t => (f v).map (next · t)
  | stopped r t => .ok (stopped r t)

end CursorResult

namespace Tail

theorem guard_opened : opened.guard (α := α) = none := rfl

theorem guard_of_ending {tail : Tail} {e : Except CursorError (StopReason × Continuation)}
    (h : tail.ending? = some e) :
    tail.guard (α := α) = some (e.map fun (r, t) => .stopped r t) := by
  rw [guard, h]
  rfl

theorem exists_ending {tail : Tail} (h : tail ≠ .opened) : ∃ e, tail.ending? = some e := by
  cases tail with
  | opened => exact absurd rfl h
  | done | failed | closed => exact ⟨_, rfl⟩

end Tail

/-- A cursor that was put together from others, layer by layer. -/
inductive Layered : Type → Type 1 where
  /-- A cursor with a state of its own, whatever its rows are made of. -/
  | guarded (h : Handle α) : Layered α
  | map (f : α → β) (below : Layered α) : Layered β
  | filter (p : α → Bool) (below : Layered α) : Layered α
  | tryMap (f : α → Except CursorError β) (tail : Tail) (below : Layered α) : Layered β
  /-- A cursor within the limits of a request: how many rows it still leaves out, how many it has
  returned, and the continuation of the last of either. -/
  | limited (p : ScanProperties) (skip returned : Nat) (last : Continuation) (tail : Tail)
      (below : Layered α) : Layered α

namespace Layered

/-- The state towards the caller. -/
def tail : Layered α → Tail
  | guarded h => h.tail
  | map _ below => below.tail
  | filter _ below => below.tail
  | tryMap _ tail _ => tail
  | limited _ _ _ _ tail _ => tail

/-- Whether no layer has ended. -/
def IsOpen : Layered α → Prop
  | guarded h => h.tail = .opened
  | map _ below => below.IsOpen
  | filter _ below => below.IsOpen
  | tryMap _ tail below => tail = .opened ∧ below.IsOpen
  | limited _ _ _ _ tail below => tail = .opened ∧ below.IsOpen

/-- The one cursor that open layers make together. -/
def cursor : Layered α → Cursor α
  | guarded h => h.cursor
  | map f below => below.cursor.map f
  | filter p below => below.cursor.filter p
  | tryMap f _ below => below.cursor.tryMap f
  | limited p skip returned last _ below =>
    match Cursor.reachedLimit p returned with
    | some r => .stopFor r last
    | none => .limitFrom p skip returned below.cursor

theorem cursor_map (f : α → β) (below : Layered α) : (below.map f).cursor = below.cursor.map f :=
  rfl

theorem cursor_filter (p : α → Bool) (below : Layered α) :
    (below.filter p).cursor = below.cursor.filter p :=
  rfl

theorem cursor_tryMap (f : α → Except CursorError β) (tail : Tail) (below : Layered α) :
    (below.tryMap f tail).cursor = below.cursor.tryMap f :=
  rfl

/-- The layers after the cursor was closed.  Closing goes down to the lowest layer. -/
def closed : Layered α → Layered α
  | guarded h => guarded ⟨.closed, h.cursor⟩
  | map f below => map f below.closed
  | filter p below => filter p below.closed
  | tryMap f _ below => tryMap f .closed below.closed
  | limited p skip returned last _ below => limited p skip returned last .closed below.closed

/-- Gives the cursor up, and its tasks with it. -/
def close (o : Layered α) (w : World) : World × Layered α := (w.dropAll, o.closed)

/-- How many layers there are on the lowest one. -/
def height : Layered α → Nat
  | guarded _ => 0
  | map _ below => below.height + 1
  | filter _ below => below.height + 1
  | tryMap _ _ below => below.height + 1
  | limited _ _ _ _ _ below => below.height + 1

/-- Asked for a row in a world, the cursor gives an answer, and the world and the layers become
others. -/
inductive Answers : {α : Type} → Layered α → World → World → Layered α →
    Except CursorError (CursorResult α) → Prop
  | guarded (h : Handle α) (w : World) :
    Answers (guarded h) w (h.next w).1 (guarded (h.next w).2.1) (h.next w).2.2
  | map (f : α → β) {below below' : Layered α} {w w' answer} :
    Answers below w w' below' answer →
    Answers (map f below) w w' (map f below') (answer.map (·.map f))
  | accept {p : α → Bool} {below below' : Layered α} {w w' answer} :
    Answers below w w' below' answer → (∀ v t, answer = .ok (.next v t) → p v = true) →
    Answers (filter p below) w w' (filter p below') answer
  /-- A row that the predicate rejects is left out, and the cursor below is asked again. -/
  | reject {p : α → Bool} {below below' above : Layered α} {w w' w'' v t answer} :
    Answers below w w' below' (.ok (.next v t)) → p v = false →
    Answers (filter p below') w' w'' above answer → Answers (filter p below) w w'' above answer
  | tryMapEnded (f : α → Except CursorError β) {tail : Tail} {below : Layered α} {w answer} :
    tail.guard = some answer → Answers (tryMap f tail below) w w (tryMap f tail below) answer
  | tryMap (f : α → Except CursorError β) {below below' : Layered α} {w w' answer} :
    Answers below w w' below' answer →
    Answers (tryMap f .opened below) w w'
      (tryMap f (Tail.opened.observe (answer.bind (·.tryMap f))) below')
      (answer.bind (·.tryMap f))
  | limitedEnded {p skip returned last} {tail : Tail} {below : Layered α} {w answer} :
    tail.guard = some answer →
    Answers (limited p skip returned last tail below) w w
      (limited p skip returned last tail below) answer
  /-- At a limit the cursor below is closed without being asked. -/
  | limit {p skip returned last r} {below : Layered α} {w} :
    Cursor.reachedLimit p returned = some r →
    Answers (limited p skip returned last .opened below) w (below.close w).1
      (limited p skip returned last (Tail.opened.observe (α := α) (.ok (.stoppedFor r last)))
        (below.close w).2)
      (.ok (.stoppedFor r last))
  /-- A row is left out, and the cursor below is asked again.  No row was returned since the limits
  were last looked at. -/
  | skip {p skip returned last} {below below' above : Layered α} {w w' w'' v t answer} :
    Cursor.reachedLimit p returned = none → Answers below w w' below' (.ok (.next v t)) →
    Answers (limited p skip returned t .opened below') w' w'' above answer →
    Answers (limited p (skip + 1) returned last .opened below) w w'' above answer
  | returned {p returned last} {below below' : Layered α} {w w' v t} :
    Cursor.reachedLimit p returned = none → Answers below w w' below' (.ok (.next v t)) →
    Answers (limited p 0 returned last .opened below) w w'
      (limited p 0 (returned + 1) t .opened below') (.ok (.next v t))
  | ended {p skip returned last} {below below' : Layered α} {w w' answer} :
    Cursor.reachedLimit p returned = none → Answers below w w' below' answer →
    (∀ v t, answer ≠ .ok (.next v t)) →
    Answers (limited p skip returned last .opened below) w w'
      (limited p skip returned last (Tail.opened.observe answer) below') answer

/-! ### Closing -/

@[simp] theorem closed_closed (o : Layered α) : o.closed.closed = o.closed := by
  induction o with
  | guarded => rfl
  | map _ _ ih | filter _ _ ih | tryMap _ _ _ ih | limited _ _ _ _ _ _ ih =>
    simp only [closed, ih]

@[simp] theorem tail_closed (o : Layered α) : o.closed.tail = .closed := by
  induction o with
  | map _ _ ih | filter _ _ ih => exact ih
  | _ => rfl

@[simp] theorem height_closed (o : Layered α) : o.closed.height = o.height := by
  induction o with
  | guarded => rfl
  | map _ _ ih | filter _ _ ih | tryMap _ _ _ ih | limited _ _ _ _ _ _ ih =>
    exact congrArg (· + 1) ih

/-- Closing a closed cursor changes nothing. -/
theorem close_close (o : Layered α) (w : World) : (o.close w).2.close (o.close w).1 = o.close w := by
  have htask (t : Task) : (if (if t.orphan then t else t.givenUp).orphan then
      (if t.orphan then t else t.givenUp) else (if t.orphan then t else t.givenUp).givenUp) =
      if t.orphan then t else t.givenUp := by
    split <;> rfl
  have hworld : w.dropAll.dropAll = w.dropAll := by
    simp only [World.dropAll, List.map_map, Function.comp_def, htask]
  rw [close, close, hworld, closed_closed]

/-! ### Asking through a layer -/

section Next

open Cursor

variable (c : Cursor α) (w : World)

theorem next_map (f : α → β) : (c.map f).next w =
    match c.next w with
    | (w, .row v t rest) => (w, .row (f v) t (rest.map f))
    | (w, .stop r t) => (w, .stop r t)
    | (w, .fail e) => (w, .fail e) := by
  induction c generalizing w with
  | row | stop | fail => rfl
  | consult k ih => exact ih w w
  | commit x c ih => exact ih x
  | pause wait rest ih => exact ih () (w.await wait)

theorem next_tryMap (f : α → Except CursorError β) : (c.tryMap f).next w =
    match c.next w with
    | (w, .row v t rest) =>
      match f v with
      | .ok u => (w, .row u t (rest.tryMap f))
      | .error e => (w, .fail e)
    | (w, .stop r t) => (w, .stop r t)
    | (w, .fail e) => (w, .fail e) := by
  induction c generalizing w with
  | row v t rest =>
    rw [Cursor.tryMap]
    cases hf : f v <;> simp only [next, hf]
  | stop | fail => rfl
  | consult k ih => exact ih w w
  | commit x c ih => exact ih x
  | pause wait rest ih => exact ih () (w.await wait)

theorem next_filter (p : α → Bool) : (c.filter p).next w =
    match c.next w with
    | (w, .row v t rest) => if p v then (w, .row v t (rest.filter p)) else (rest.filter p).next w
    | (w, .stop r t) => (w, .stop r t)
    | (w, .fail e) => (w, .fail e) := by
  induction c generalizing w with
  | row v t rest =>
    rw [Cursor.filter]
    cases hp : p v <;> simp only [next, hp, if_true, Bool.false_eq_true, if_false]
  | stop | fail => rfl
  | consult k ih => exact ih w w
  | commit x c ih => exact ih x
  | pause wait rest ih => exact ih () (w.await wait)

theorem next_limitFrom (p : ScanProperties) (skip returned : Nat) :
    (limitFrom p skip returned c).next w =
      match c.next w with
      | (w, .row v t rest) =>
        if skip = 0 then
          (w, .row v t (match reachedLimit p (returned + 1) with
            | some r => stopFor r t
            | none => limitFrom p 0 (returned + 1) rest))
        else (limitFrom p (skip - 1) returned rest).next w
      | (w, .stop r t) => (w, .stop r t)
      | (w, .fail e) => (w, .fail e) := by
  induction c generalizing w with
  | row v t rest =>
    rw [limitFrom]
    split
    · rfl
    · simp only [next]
  | stop | fail => rfl
  | consult k ih => exact ih w w
  | commit x c ih => exact ih x
  | pause wait rest ih => exact ih () (w.await wait)

end Next

/-! ### What a caller sees of the layers -/

/-- What a reply of the one cursor tells of the world, the layers and the answer. -/
inductive Tells : World × Cursor.Reply α → World → Layered α →
    Except CursorError (CursorResult α) → Prop
  | row {o : Layered α} {w v t} : o.IsOpen →
    Tells (w, .row v t o.cursor) w o (.ok (.next v t))
  | stop {o : Layered α} {w r t} : o.tail = .done r t →
    Tells (w, .stop r t) w.dropAll o (.ok (.stopped r t))
  | fail {o : Layered α} {w e} : o.tail = .failed → Tells (w, .fail e) w o (.error e)

theorem Tells.of_row {o : Layered α} {w w' v t} {c : Cursor α} {answer}
    (h : Tells (w, .row v t c) w' o answer) :
    w' = w ∧ o.IsOpen ∧ o.cursor = c ∧ answer = .ok (.next v t) := by
  generalize hreply : (w, Cursor.Reply.row v t c) = reply at h
  cases h with
  | row hopen =>
    cases hreply
    exact ⟨rfl, hopen, rfl, rfl⟩
  | stop | fail => cases hreply

theorem Tells.isOpen {o : Layered α} {reply : World × Cursor.Reply α} {w v t}
    (h : Tells reply w o (.ok (.next v t))) : o.IsOpen := by
  cases h
  assumption

variable {o o' : Layered α} {w w' : World} {answer : Except CursorError (CursorResult α)}

/-- A cursor that has ended repeats its end, and nothing happens. -/
theorem Answers.of_ending {e : Except CursorError (StopReason × Continuation)}
    (h : o.Answers w w' o' answer) (he : o.tail.ending? = some e) :
    w' = w ∧ o' = o ∧ answer = e.map fun (r, t) => .stopped r t := by
  induction h with
  | guarded h w =>
    replace he : h.tail.ending? = some e := he
    simp only [Handle.next, Tail.guard_of_ending he, and_self]
  | map f _ ih =>
    obtain ⟨rfl, rfl, rfl⟩ := ih he
    cases e <;> exact ⟨rfl, rfl, rfl⟩
  | accept _ _ ih =>
    obtain ⟨rfl, rfl, rfl⟩ := ih he
    exact ⟨rfl, rfl, rfl⟩
  | reject _ _ _ ih =>
    -- an end is not a row
    obtain ⟨-, -, hrow⟩ := ih he
    cases e <;> cases hrow
  | tryMapEnded f hg | limitedEnded hg =>
    exact ⟨rfl, rfl, Option.some.inj (hg.symm.trans (Tail.guard_of_ending he))⟩
  | tryMap | limit | skip | returned | ended => cases he

/-! Each layer answers as its own cursor replies if the layers below it do. -/

section Tells

variable {below below' : Layered α} {t : Continuation}

theorem tells_guarded (c : Cursor α) (w : World) :
    Tells (c.next w) ((⟨.opened, c⟩ : Handle α).next w).1
      (guarded ((⟨.opened, c⟩ : Handle α).next w).2.1) ((⟨.opened, c⟩ : Handle α).next w).2.2 := by
  simp only [Handle.next, Tail.guard_opened]
  split <;> rename_i hnext <;> rw [hnext]
  · rename_i rest
    exact Tells.row (o := guarded ⟨.opened, rest⟩) rfl
  · exact .stop rfl
  · exact .fail rfl

theorem Tells.map (h : Tells (below.cursor.next w) w' below' answer) (f : α → β) :
    Tells ((below.map f).cursor.next w) w' (below'.map f) (answer.map (·.map f)) := by
  rw [cursor_map, next_map]
  generalize below.cursor.next w = reply at h
  cases h with
  | row hopen => exact Tells.row (o := below'.map f) hopen
  | stop htail => exact .stop htail
  | fail htail => exact .fail htail

theorem Tells.accept {p : α → Bool} (h : Tells (below.cursor.next w) w' below' answer)
    (hp : ∀ v t, answer = .ok (.next v t) → p v = true) :
    Tells ((below.filter p).cursor.next w) w' (below'.filter p) answer := by
  rw [cursor_filter, next_filter]
  generalize below.cursor.next w = reply at h
  cases h with
  | row hopen =>
    simp only [hp _ _ rfl, if_true]
    exact Tells.row (o := below'.filter p) hopen
  | stop htail => exact .stop htail
  | fail htail => exact .fail htail

theorem Tells.cursor_reject {p : α → Bool} {v : α}
    (h : Tells (below.cursor.next w) w' below' (.ok (.next v t))) (hp : p v = false) :
    (below.filter p).cursor.next w = (below'.filter p).cursor.next w' := by
  rw [cursor_filter, next_filter]
  generalize below.cursor.next w = reply at h
  cases h with
  | row => simp only [hp, Bool.false_eq_true, if_false, cursor_filter]

theorem Tells.tryMap (h : Tells (below.cursor.next w) w' below' answer)
    (f : α → Except CursorError β) {tail : Tail} :
    Tells ((below.tryMap f tail).cursor.next w) w'
      (below'.tryMap f (Tail.opened.observe (answer.bind (·.tryMap f))))
      (answer.bind (·.tryMap f)) := by
  rw [cursor_tryMap, next_tryMap]
  generalize below.cursor.next w = reply at h
  cases h with
  | @row _ _ v t hopen =>
    cases hf : f v with
    | ok u =>
      simp only [Except.bind, CursorResult.tryMap, hf, Except.map]
      exact Tells.row (o := below'.tryMap f .opened) (And.intro rfl hopen)
    | error e =>
      simp only [Except.bind, CursorResult.tryMap, hf, Except.map]
      exact .fail rfl
  | stop => exact .stop rfl
  | fail => exact .fail rfl

variable {p : ScanProperties} {skip count : Nat} {last : Continuation} {tail : Tail}

theorem cursor_limited (hr : Cursor.reachedLimit p count = none) :
    (below.limited p skip count last tail).cursor =
      Cursor.limitFrom p skip count below.cursor := by
  rw [cursor, hr]

theorem tells_limit {r : StopReason} (hr : Cursor.reachedLimit p count = some r) :
    Tells ((below.limited p skip count last tail).cursor.next w) (below.close w).1
      ((below.close w).2.limited p skip count last
        (Tail.opened.observe (α := α) (.ok (.stoppedFor r last))))
      (.ok (.stoppedFor r last)) := by
  have hl := Cursor.isLimit_of_reachedLimit hr
  rw [cursor, hr]
  simp only [Cursor.stopFor, CursorResult.stoppedFor, hl, if_true]
  exact .stop rfl

theorem Tells.cursor_skip {v : α} (h : Tells (below.cursor.next w) w' below' (.ok (.next v t)))
    (hr : Cursor.reachedLimit p count = none) :
    (below.limited p (skip + 1) count last tail).cursor.next w =
      (below'.limited p skip count t tail).cursor.next w' := by
  rw [cursor_limited hr, cursor_limited hr, next_limitFrom]
  generalize below.cursor.next w = reply at h
  cases h
  rfl

theorem Tells.returned {v : α} (h : Tells (below.cursor.next w) w' below' (.ok (.next v t)))
    (hr : Cursor.reachedLimit p count = none) :
    Tells ((below.limited p 0 count last tail).cursor.next w) w'
      (below'.limited p 0 (count + 1) t .opened) (.ok (.next v t)) := by
  rw [cursor_limited hr, next_limitFrom]
  generalize below.cursor.next w = reply at h
  cases h with
  | row hopen =>
    have hopen' : (below'.limited p 0 (count + 1) t .opened).IsOpen := ⟨rfl, hopen⟩
    exact .row hopen'

theorem Tells.ended (h : Tells (below.cursor.next w) w' below' answer)
    (hr : Cursor.reachedLimit p count = none) (hend : ∀ v t, answer ≠ .ok (.next v t)) :
    Tells ((below.limited p skip count last tail).cursor.next w) w'
      (below'.limited p skip count last (Tail.opened.observe answer)) answer := by
  rw [cursor_limited hr, next_limitFrom]
  generalize below.cursor.next w = reply at h
  cases h with
  | row => exact absurd rfl (hend _ _)
  | stop => exact .stop rfl
  | fail => exact .fail rfl

end Tells

/-- Open layers answer as the one cursor replies that they make together. -/
theorem Answers.tells (h : o.Answers w w' o' answer) (ho : o.IsOpen) :
    Tells (o.cursor.next w) w' o' answer := by
  induction h with
  | guarded h w =>
    obtain ⟨_, c⟩ := h
    obtain rfl : _ = Tail.opened := ho
    exact tells_guarded c w
  | map f _ ih => exact (ih ho).map f
  | accept _ hp ih => exact (ih ho).accept hp
  | reject _ hp _ ih ih' =>
    rw [(ih ho).cursor_reject hp]
    exact ih' (ih ho).isOpen
  | tryMapEnded f hg | limitedEnded hg =>
    obtain ⟨rfl, -⟩ := ho
    cases hg
  | tryMap f _ ih => exact (ih ho.2).tryMap f
  | limit hr => exact tells_limit hr
  | skip hr _ _ ih ih' =>
    rw [(ih ho.2).cursor_skip hr]
    exact ih' ⟨rfl, (ih ho.2).isOpen⟩
  | returned hr _ ih => exact (ih ho.2).returned hr
  | ended hr _ hend ih => exact (ih ho.2).ended hr hend

/-! ### There is an answer -/

theorem Answers.height_eq (h : o.Answers w w' o' answer) : o'.height = o.height := by
  induction h with
  | guarded | tryMapEnded | limitedEnded => rfl
  | map _ _ ih | accept _ _ ih | tryMap _ _ ih | returned _ _ ih | ended _ _ _ ih =>
    simp only [height, ih]
  | reject _ _ _ ih ih' | skip _ _ _ ih ih' =>
    rw [ih']
    simp only [height, ih]
  | limit => simp only [height, close, height_closed]

/-- A cursor that has ended answers. -/
theorem answers_of_ending {e : Except CursorError (StopReason × Continuation)}
    (he : o.tail.ending? = some e) (w : World) :
    o.Answers w w o (e.map fun (r, t) => .stopped r t) := by
  induction o with
  | guarded h =>
    have answers := Answers.guarded h w
    replace he : h.tail.ending? = some e := he
    simpa only [Handle.next, Tail.guard_of_ending he] using answers
  | map f below ih =>
    have answers := (ih he).map f
    cases e <;> exact answers
  | filter p below ih =>
    refine .accept (ih he) fun v t hrow => ?_
    cases e <;> cases hrow
  | tryMap f tail below ih => exact .tryMapEnded f (Tail.guard_of_ending he)
  | limited p skip returned last tail below ih => exact .limitedEnded (Tail.guard_of_ending he)

/-- All open cursors of some height answer, whatever the world. -/
def AllAnswer (n : Nat) : Prop :=
  ∀ {α : Type} (o : Layered α), o.height = n → o.IsOpen →
    ∀ w, ∃ w' o' answer, o.Answers w w' o' answer

theorem AllAnswer.tells {n : Nat} (h : AllAnswer n) (hn : o.height = n) (ho : o.IsOpen)
    {reply : World × Cursor.Reply α} (hreply : o.cursor.next w = reply) :
    ∃ w' o' answer, o.Answers w w' o' answer ∧ Tells reply w' o' answer := by
  obtain ⟨w', o', answer, hanswers⟩ := h o hn ho w
  exact ⟨w', o', answer, hanswers, hreply ▸ hanswers.tells ho⟩

/-- A filter asks the cursor below again until there is no row that it rejects.  The induction is on
what that cursor still has to hand out. -/
theorem AllAnswer.filter {n : Nat} (h : AllAnswer n) (p : α → Bool) (c : Cursor α)
    {below : Layered α} (hn : below.height = n) (ho : below.IsOpen) {w x : World}
    (hc : below.cursor.next w = c.next x) :
    ∃ w' o' answer, (below.filter p).Answers w w' o' answer := by
  induction c generalizing below w x with
  | row v t rest ih =>
    obtain ⟨w', below', answer, hanswers, htells⟩ := h.tells hn ho hc
    obtain ⟨rfl, hopen, hrest, rfl⟩ := htells.of_row
    cases hp : p v with
    | true =>
      refine ⟨_, _, _, .accept hanswers fun v' t' hrow => ?_⟩
      cases hrow
      exact hp
    | false =>
      obtain ⟨w'', o', answer, hagain⟩ :=
        ih () (hanswers.height_eq.trans hn) hopen (congrArg (Cursor.next · w') hrest)
      exact ⟨_, _, _, .reject hanswers hp hagain⟩
  | stop r t =>
    obtain ⟨w', below', answer, hanswers, htells⟩ := h.tells hn ho hc
    cases htells
    exact ⟨_, _, _, .accept hanswers nofun⟩
  | fail e =>
    obtain ⟨w', below', answer, hanswers, htells⟩ := h.tells hn ho hc
    cases htells
    exact ⟨_, _, _, .accept hanswers nofun⟩
  | consult k ih => exact ih x hn ho hc
  | commit y c ih => exact ih hn ho hc
  | pause wait rest ih => exact ih () hn ho hc

/-- A cursor within limits asks the one below once more than there are rows to leave out. -/
theorem AllAnswer.limited {n : Nat} (h : AllAnswer n) (p : ScanProperties) (skip returned : Nat)
    (last : Continuation) {below : Layered α} (hn : below.height = n) (ho : below.IsOpen)
    (w : World) :
    ∃ w' o' answer, (below.limited p skip returned last .opened).Answers w w' o' answer := by
  cases hr : Cursor.reachedLimit p returned with
  | some r => exact ⟨_, _, _, .limit hr⟩
  | none =>
    induction skip generalizing below last w with
    | zero =>
      obtain ⟨w', below', answer, hanswers⟩ := h below hn ho w
      by_cases hrow : ∃ v t, answer = .ok (.next v t)
      · obtain ⟨v, t, rfl⟩ := hrow
        exact ⟨_, _, _, .returned hr hanswers⟩
      · exact ⟨_, _, _, .ended hr hanswers fun v t h => hrow ⟨v, t, h⟩⟩
    | succ skip ih =>
      obtain ⟨w', below', answer, hanswers⟩ := h below hn ho w
      by_cases hrow : ∃ v t, answer = .ok (.next v t)
      · obtain ⟨v, t, rfl⟩ := hrow
        obtain ⟨w'', o', answer, hagain⟩ :=
          ih t (hanswers.height_eq.trans hn) (hanswers.tells ho).isOpen w'
        exact ⟨_, _, _, .skip hr hanswers hagain⟩
      · exact ⟨_, _, _, .ended hr hanswers fun v t h => hrow ⟨v, t, h⟩⟩

theorem allAnswer (n : Nat) : AllAnswer n := by
  induction n with
  | zero =>
    intro α o hn ho w
    cases o with
    | guarded h => exact ⟨_, _, _, .guarded h w⟩
    | map | filter | tryMap | limited => cases hn
  | succ n ih =>
    intro α o hn ho w
    cases o with
    | guarded h => cases hn
    | map f below =>
      obtain ⟨w', below', answer, hanswers⟩ := ih below (Nat.succ.inj hn) ho w
      exact ⟨_, _, _, hanswers.map f⟩
    | filter p below => exact ih.filter p below.cursor (Nat.succ.inj hn) ho rfl
    | tryMap f tail below =>
      obtain ⟨rfl, ho⟩ := ho
      obtain ⟨w', below', answer, hanswers⟩ := ih below (Nat.succ.inj hn) ho w
      exact ⟨_, _, _, hanswers.tryMap f⟩
    | limited p skip returned last tail below =>
      obtain ⟨rfl, ho⟩ := ho
      exact ih.limited p skip returned last (Nat.succ.inj hn) ho w

/-- An open cursor answers whenever it is asked. -/
theorem IsOpen.exists_answers (ho : o.IsOpen) (w : World) :
    ∃ w' o' answer, o.Answers w w' o' answer :=
  allAnswer o.height o rfl ho w

end Layered

end ResumableQuery
