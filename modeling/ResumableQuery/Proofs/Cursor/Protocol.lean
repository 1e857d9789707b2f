import ResumableQuery.Proofs.Cursor.Layers
import ResumableQuery.Proofs.Cursor.Marks

/-!
# The protocol of cursors

A cursor may be asked for rows and closed in any order, and what it answers keeps a protocol
(`Protocol`): its first end is repeated, after its first failure it is unusable, and once it was
closed it answers nothing else.  An end carries the end continuation exactly if the source ran dry.

This holds of every cursor that is put together from the sources and adapters (`Assembled`), layer
by layer, and its calls come to what they come to for the one cursor that the layers make together.
-/

namespace ResumableQuery

/-! ### Calls and what comes of them -/

/-- A call of a cursor, in whatever world there is by then. -/
inductive Call where
  | next (w : World)
  | close (w : World)

/-- What comes of a call. -/
inductive Event (α : Type) where
  | answered (answer : Except CursorError (CursorResult α))
  | closed

/-- The answers before the cursor is closed. -/
def Event.answersUntilClosed : List (Event α) → List (Except CursorError (CursorResult α))
  | answered answer :: events => answer :: answersUntilClosed events
  | _ => []

/-- How a cursor answers its callers. -/
structure Protocol (events : List (Event α)) : Prop where
  /-- The first end is repeated until the cursor is closed. -/
  stopped : ∀ before r t later, events = before ++ .answered (.ok (.stopped r t)) :: later →
    ∀ answer ∈ Event.answersUntilClosed later, answer = .ok (.stopped r t)
  /-- After the first failure the cursor is unusable until it is closed. -/
  failed : ∀ before e later, events = before ++ .answered (.error e) :: later → .closed ∉ before →
    ∀ answer ∈ Event.answersUntilClosed later, answer = .error .unusable
  /-- Once the cursor was closed there is no other answer, whatever came before. -/
  closed : ∀ before later, events = before ++ .closed :: later →
    ∀ answer, .answered answer ∈ later → answer = .error .closed
  /-- An end carries the end continuation exactly if the source ran dry. -/
  marked : ∀ r t, .answered (.ok (.stopped r t)) ∈ events → (t = .done ↔ r = .sourceExhausted)

namespace Protocol

variable {events : List (Event α)}

theorem nil : Protocol (α := α) [] where
  stopped before r t later h := by simp at h
  failed before e later h := by simp at h
  closed before later h := by simp at h
  marked r t h := nomatch h

theorem cons_closed (h : ∀ answer, .answered answer ∈ events → answer = .error .closed) :
    Protocol (.closed :: events) := by
  constructor
  · intro before r t later heq
    cases before with
    | nil => cases heq
    | cons e before =>
      obtain ⟨-, rfl⟩ := List.cons.inj heq
      cases h _ (List.mem_append_right _ List.mem_cons_self)
  · intro before e later heq hopen
    cases before with
    | nil => cases heq
    | cons e before =>
      obtain ⟨rfl, -⟩ := List.cons.inj heq
      exact absurd List.mem_cons_self hopen
  · intro before later heq answer hanswer
    cases before with
    | nil =>
      obtain ⟨-, rfl⟩ := List.cons.inj heq
      exact h answer hanswer
    | cons e before =>
      obtain ⟨-, rfl⟩ := List.cons.inj heq
      exact h answer (List.mem_append_right _ (List.mem_cons_of_mem _ hanswer))
  · intro r t hmem
    rcases List.mem_cons.1 hmem with heq | hmem
    · cases heq
    · cases h _ hmem

theorem cons_answered {answer : Except CursorError (CursorResult α)} (h : Protocol events)
    (hstopped : ∀ r t, answer = .ok (.stopped r t) → (t = .done ↔ r = .sourceExhausted) ∧
      ∀ later ∈ Event.answersUntilClosed events, later = .ok (.stopped r t))
    (hfailed : ∀ e, answer = .error e →
      ∀ later ∈ Event.answersUntilClosed events, later = .error .unusable) :
    Protocol (.answered answer :: events) := by
  constructor
  · intro before r t later heq
    cases before with
    | nil =>
      obtain ⟨hanswer, rfl⟩ := List.cons.inj heq
      exact (hstopped r t (Event.answered.inj hanswer)).2
    | cons e before => exact h.stopped before r t later (List.cons.inj heq).2
  · intro before e later heq hopen
    cases before with
    | nil =>
      obtain ⟨hanswer, rfl⟩ := List.cons.inj heq
      exact hfailed e (Event.answered.inj hanswer)
    | cons _ before =>
      exact h.failed before e later (List.cons.inj heq).2 (fun hmem => hopen (.tail _ hmem))
  · intro before later heq
    cases before with
    | nil => cases heq
    | cons _ before => exact h.closed before later (List.cons.inj heq).2
  · intro r t hmem
    rcases List.mem_cons.1 hmem with heq | hmem
    · exact (hstopped r t (Event.answered.inj heq).symm).1
    · exact h.marked r t hmem

end Protocol

/-! ### The history of a cursor -/

namespace Handle

variable {h : Handle α}

/-- What comes of some calls, one after the other. -/
def history (h : Handle α) : List Call → List (Event α)
  | [] => []
  | .next w :: calls => .answered (h.next w).2.2 :: (h.next w).2.1.history calls
  | .close w :: calls => .closed :: (h.close w).2.history calls

/-- The end that the state repeats, and the ends that are to come, carry the right continuations. -/
def WellMarked (h : Handle α) : Prop :=
  match h.tail with
  | .opened => h.cursor.WellMarked
  | .done r t => t = .done ↔ r = .sourceExhausted
  | .failed => True
  | .closed => True

theorem next_of_guard {answer : Except CursorError (CursorResult α)}
    (hg : h.tail.guard = some answer) (w : World) : h.next w = (w, h, answer) := by
  rw [next, hg]

/-- A cursor that has ended answers in the same way until it is closed. -/
theorem answersUntilClosed_history {answer : Except CursorError (CursorResult α)}
    (hg : h.tail.guard = some answer) (calls : List Call) :
    ∀ later ∈ Event.answersUntilClosed (h.history calls), later = answer := by
  induction calls with
  | nil => exact fun _ hlater => nomatch hlater
  | cons call calls ih =>
    cases call with
    | next w =>
      rw [history, next_of_guard hg]
      exact List.forall_mem_cons.2 ⟨rfl, ih⟩
    | close w => exact fun _ hlater => nomatch hlater

/-- A closed cursor stays closed. -/
theorem answer_of_mem_history_closed (c : Cursor α) (calls : List Call) :
    ∀ answer, .answered answer ∈ (⟨.closed, c⟩ : Handle α).history calls →
      answer = .error .closed := by
  induction calls with
  | nil =>
    intro answer hmem
    cases hmem
  | cons call calls ih =>
    intro answer hmem
    cases call with
    | next w =>
      rcases List.mem_cons.1 hmem with heq | hmem
      · exact Event.answered.inj heq
      · exact ih answer hmem
    | close w =>
      rcases List.mem_cons.1 hmem with heq | hmem
      · cases heq
      · exact ih answer hmem

/-- Asked for a row, a cursor that is not closed has the state that its answer leaves. -/
theorem tail_next (hc : h.tail ≠ .closed) (w : World) :
    (h.next w).2.1.tail = Tail.opened.observe (h.next w).2.2 := by
  obtain ⟨tail, c⟩ := h
  cases tail with
  | opened =>
    simp only [next, Tail.guard_opened]
    split <;> rfl
  | done | failed => rfl
  | closed => exact absurd rfl hc

theorem tail_next_ne_closed (hc : h.tail ≠ .closed) (w : World) :
    (h.next w).2.1.tail ≠ .closed := by
  rw [tail_next hc]
  rcases (h.next w).2.2 with e | (⟨v, t⟩ | ⟨r, t⟩) <;> exact Tail.noConfusion

theorem WellMarked.next (hm : h.WellMarked) (w : World) : (h.next w).2.1.WellMarked := by
  obtain ⟨tail, c⟩ := h
  cases tail with
  | opened =>
    have hnext := Cursor.WellMarked.next hm w
    simp only [Handle.next, Tail.guard_opened]
    generalize c.next w = reply at hnext
    obtain ⟨w', reply⟩ := reply
    cases reply with
    | row | stop => exact hnext
    | fail => trivial
  | done | failed | closed => exact hm

theorem WellMarked.of_done {r : StopReason} {t : Continuation} (hm : h.WellMarked)
    (ht : h.tail = .done r t) : t = .done ↔ r = .sourceExhausted := by
  rwa [WellMarked, ht] at hm

/-- What comes of the calls of a cursor that was not closed before keeps the protocol. -/
theorem protocol_history (hm : h.WellMarked) (hc : h.tail ≠ .closed) (calls : List Call) :
    Protocol (h.history calls) := by
  induction calls generalizing h with
  | nil => exact .nil
  | cons call calls ih =>
    cases call with
    | close w => exact .cons_closed (answer_of_mem_history_closed h.cursor calls)
    | next w =>
      have htail := tail_next hc w
      refine .cons_answered (ih (hm.next w) (tail_next_ne_closed hc w)) ?_ ?_
      · intro r t heq
        rw [heq] at htail
        refine ⟨(hm.next w).of_done htail, answersUntilClosed_history ?_ calls⟩
        rw [htail]
        rfl
      · intro e heq
        rw [heq] at htail
        refine answersUntilClosed_history ?_ calls
        rw [htail]
        rfl

end Handle

/-! ### The history of a cursor in layers -/

namespace Layered

/-- What comes of some calls, one after the other, and the layers then. -/
inductive Serves : Layered α → List Call → List (Event α) → Layered α → Prop
  | nil (o : Layered α) : Serves o [] [] o
  | next {o o' o'' : Layered α} {w w' answer calls events} :
    Answers o w w' o' answer → Serves o' calls events o'' →
    Serves o (.next w :: calls) (.answered answer :: events) o''
  | close {o o' : Layered α} {w calls events} : Serves (o.close w).2 calls events o' →
    Serves o (.close w :: calls) (.closed :: events) o'

/-- The layers are what the caller of one cursor takes them for: open with its rows ahead, or ended
in its state. -/
def Seen (o : Layered α) (h : Handle α) : Prop :=
  o.IsOpen ∧ h = .new o.cursor ∨ o.tail = h.tail ∧ h.tail ≠ .opened

variable {o o' : Layered α} {h : Handle α} {w w' : World}
  {answer : Except CursorError (CursorResult α)}

theorem seen_of_tail_eq {tail : Tail} {c : Cursor α} (ht : o.tail = tail) (hopen : tail ≠ .opened) :
    o.Seen ⟨tail, c⟩ :=
  .inr ⟨ht, hopen⟩

theorem seen_close (o : Layered α) (h : Handle α) (w w' : World) :
    (o.close w).2.Seen (h.close w').2 :=
  seen_of_tail_eq o.tail_closed Tail.noConfusion

/-- Asked for a row, the layers answer as the one cursor does. -/
theorem Seen.next (hs : o.Seen h) (ha : o.Answers w w' o' answer) :
    (h.next w).1 = w' ∧ (h.next w).2.2 = answer ∧ o'.Seen (h.next w).2.1 := by
  rcases hs with ⟨hopen, rfl⟩ | ⟨htail, hended⟩
  · have htells := ha.tells hopen
    simp only [Handle.next, Handle.new, Tail.guard_opened]
    generalize o.cursor.next w = reply at htells
    cases htells with
    | row hopen => exact ⟨rfl, rfl, .inl ⟨hopen, rfl⟩⟩
    | stop ht => exact ⟨rfl, rfl, seen_of_tail_eq ht Tail.noConfusion⟩
    | fail ht => exact ⟨rfl, rfl, seen_of_tail_eq ht Tail.noConfusion⟩
  · obtain ⟨e, he⟩ := Tail.exists_ending hended
    obtain ⟨rfl, rfl, rfl⟩ := ha.of_ending (htail ▸ he)
    rw [Handle.next_of_guard (Tail.guard_of_ending he)]
    exact ⟨rfl, rfl, .inr ⟨htail, hended⟩⟩

theorem Seen.exists_answers (hs : o.Seen h) (w : World) :
    ∃ w' o' answer, o.Answers w w' o' answer := by
  rcases hs with ⟨hopen, -⟩ | ⟨htail, hended⟩
  · exact hopen.exists_answers w
  · obtain ⟨e, he⟩ := Tail.exists_ending hended
    exact ⟨_, _, _, answers_of_ending (htail ▸ he) w⟩

/-- Whatever the calls, the layers serve them, and only as the one cursor does. -/
theorem Seen.serves_iff (hs : o.Seen h) (calls : List Call) (events : List (Event α)) :
    (∃ o', o.Serves calls events o') ↔ events = h.history calls := by
  induction calls generalizing o h events with
  | nil =>
    constructor
    · rintro ⟨o', hserves⟩
      cases hserves
      rfl
    · rintro rfl
      exact ⟨o, .nil o⟩
  | cons call calls ih =>
    cases call with
    | next w =>
      rw [Handle.history]
      constructor
      · rintro ⟨o', hserves⟩
        cases hserves with
        | next ha hrest =>
          obtain ⟨-, hanswer, hseen⟩ := hs.next ha
          rw [hanswer, (ih hseen _).1 ⟨_, hrest⟩]
      · rintro rfl
        obtain ⟨w', o', answer, ha⟩ := hs.exists_answers w
        obtain ⟨-, hanswer, hseen⟩ := hs.next ha
        obtain ⟨o'', hrest⟩ := (ih hseen _).2 rfl
        exact ⟨o'', hanswer ▸ .next ha hrest⟩
    | close w =>
      have hseen := seen_close o h w w
      rw [Handle.history]
      constructor
      · rintro ⟨o', hserves⟩
        cases hserves with
        | close hrest => rw [(ih hseen _).1 ⟨_, hrest⟩]
      · rintro rfl
        obtain ⟨o', hrest⟩ := (ih hseen _).2 rfl
        exact ⟨o', .close hrest⟩

end Layered

/-! ### All cursors -/

/-- Requests that are built from one without limits. -/
inductive ScanProperties.Built : ScanProperties → Prop
  | forward : Built .forward
  | backward : Built .backward
  | withSkip {p} (h : Built p) (n : Nat) : Built (p.withSkip n)
  | withLimit {p} (h : Built p) (n : Nat) : Built (p.withLimit n)
  | withScanLimit {p} (h : Built p) (n : Nat) : Built (p.withScanLimit n)
  | withTimeLimit {p} (h : Built p) (t : Option TimeLimit) : Built (p.withTimeLimit t)
  | withReverse {p} (h : Built p) (reverse : Bool) : Built (p.withReverse reverse)

theorem ScanProperties.Built.limit_ne_zero {p : ScanProperties} (h : p.Built) :
    p.limit ≠ some 0 := by
  induction h with
  | forward | backward =>
    intro h
    cases h
  | withLimit _ n => exact Cursor.limitOf_ne_zero n
  | withSkip _ _ ih | withScanLimit _ _ ih | withTimeLimit _ _ ih | withReverse _ _ ih => exact ih

namespace Layered

open Cursor

/-- A new cursor with a state of its own. -/
def new (c : Cursor α) : Layered α := guarded (.new c)

/-- A cursor opened at a continuation, within the limits of a request. -/
def within (below : Layered α) (p : ScanProperties) (t : Continuation) : Layered α :=
  limited p (if t.isStart then p.skip else 0) 0 t .opened below

/-- The cursors that are put together from the sources and adapters.  The inputs of nested
iterations and of merges may be any cursors at all. -/
inductive Assembled : {α : Type} → Layered α → Prop
  | ofList (items : List α) : Assembled (new (.ofList items))
  | list {items : List α} {t c} : Cursor.list items t = .ok c → Assembled (new c)
  | empty : Assembled (new (Cursor.empty (α := α)))
  | future (items : Except CursorError (List α)) (t : Continuation) :
    Assembled (new (.future items t))
  | keyScan {s : KeyScan} {w t c} : s.openAt w t = .ok c → Assembled (new c)
  | map (f : α → β) {below : Layered α} : Assembled below → Assembled (map f below)
  | tryMap (f : α → Except CursorError β) {below : Layered α} : Assembled below →
    Assembled (tryMap f .opened below)
  | filter (p : α → Bool) {below : Layered α} : Assembled below → Assembled (filter p below)
  | within {p : ScanProperties} (t : Continuation) {below : Layered α} : p.Built →
    Assembled below → Assembled (below.within p t)
  | pipelined (f : α → Job β) (depth : Nat) {below : Layered α} : Assembled below →
    Assembled (new (below.cursor.pipelined f depth))
  | nesting {n : Nesting α β} {openOuter t c} : n.openAt openOuter t = .ok c → Assembled (new c)
  | merge {m : Merge α} {openers t c} : m.openAt openers t = .ok c → Assembled (new c)
  | hits {s : Search.HitScan} {t c} : s.openAt t = .ok c → Assembled (new c)
  | completion (s : Search.Completion) : Assembled (new s.rows)
  | spelling {index word fields groupingKey p s} :
    Search.Spelling.new index word fields groupingKey p = .ok s → Assembled (new s.rows)

namespace Assembled

variable {o : Layered α}

theorem isOpen (h : o.Assembled) : o.IsOpen := by
  induction h with
  | map _ _ ih | filter _ _ ih => exact ih
  | tryMap _ _ ih | within _ _ _ ih => exact ⟨rfl, ih⟩
  | _ => rfl

theorem wellMarked_cursor (h : o.Assembled) : o.cursor.WellMarked := by
  induction h with
  | ofList items => exact wellMarked_rowsFrom 0 items
  | list h => exact wellMarked_list h
  | empty => exact wellMarked_exhausted
  | future items t => exact wellMarked_future items t
  | keyScan h => exact KeyScan.wellMarked_openAt h
  | map f _ ih => exact ih.map f
  | tryMap f _ ih => exact ih.tryMap f
  | filter p _ ih => exact ih.filter p
  | within t hp _ ih => exact ih.skipThenLimit hp.limit_ne_zero t
  | pipelined f depth _ ih => exact ih.pipelined f depth
  | nesting h => exact Nesting.wellMarked_openAt h
  | merge h => exact Merge.wellMarked_openAt h
  | hits h => exact Search.HitScan.wellMarked_openAt h
  | completion s => exact s.wellMarked_rows
  | spelling h => exact Search.Spelling.wellMarked_rows (Search.Spelling.limit_of_new h)

/-- Whatever is called of a cursor that was put together in any way, in whatever order, its layers
serve the calls in one way, namely as the one cursor that they make together, and what comes of the
calls keeps the protocol.  Closing the cursor twice is closing it once. -/
theorem keeps_protocol (h : o.Assembled) (calls : List Call) :
    (∀ events, (∃ o', o.Serves calls events o') ↔ events = (Handle.new o.cursor).history calls) ∧
      Protocol ((Handle.new o.cursor).history calls) ∧
      ∀ events o' w, o.Serves calls events o' → (o'.close w).2.close (o'.close w).1 = o'.close w :=
  ⟨fun events => Seen.serves_iff (.inl ⟨h.isOpen, rfl⟩) calls events,
    Handle.protocol_history (h := .new o.cursor) h.wellMarked_cursor Tail.noConfusion calls,
    fun _ o' w _ => o'.close_close w⟩

/-- Of the even numbers of a list at most one, unless it is four: asked again at the limit, the
cursor repeats its end, and once it was closed it says so. -/
theorem keeps_protocol_sample :
    let evens : Layered Nat := (new (.ofList [1, 2, 3, 4])).filter fun n => n % 2 = 0
    let c : Layered Nat := (evens.within (ScanProperties.forward.withLimit 1) .start).tryMap
      (fun n => if n = 4 then .error .unusable else .ok n) .opened
    let calls := [Call.next .empty, .next .empty, .next .empty, .close .empty, .next .empty]
    let t := (ListPosition.mk 2).toContinuation
    let events := [Event.answered (.ok (.next 2 t)), .answered (.ok (.stopped .returnLimit t)),
      .answered (.ok (.stopped .returnLimit t)), .closed, .answered (.error .closed)]
    (∃ o', c.Serves calls events o') ∧ Protocol events := by
  intro evens c calls t events
  have hc : c.Assembled := .tryMap _ (.within _ (.withLimit .forward 1) (.filter _ (.ofList _)))
  obtain ⟨hserves, hprotocol, -⟩ := keeps_protocol hc calls
  exact ⟨(hserves events).2 rfl, hprotocol⟩

end Assembled

end Layered

end ResumableQuery
