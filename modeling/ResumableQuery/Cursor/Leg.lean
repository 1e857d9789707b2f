import ResumableQuery.Cursor.Descent

/-!
# Legs

A leg is an input of a merge.  It is asked for one row at a time, and the row it gives is kept with
its comparison key until the merge uses it.  A leg that cannot answer at once waits, and is asked
again when its wait is over.  Whatever happens to it, a leg goes only one way, so asking comes to an
end.
-/

namespace ResumableQuery.Cursor

/-- An input of a merge.  Its token is the continuation after the last row that was used. -/
inductive Leg (α : Type) : Type where
  /-- The next row was not asked for. -/
  | unread (token : Continuation) (source : Cursor α)
  /-- The next row was asked for. -/
  | waiting (token : Continuation) (wait : Wait) (source : Cursor α)
  /-- A row that was read ahead, its comparison key and the continuation after it. -/
  | front (token : Continuation) (value : α) (key : Tuple) (next : Continuation) (rest : Cursor α)
  /-- There are no more rows. -/
  | ended (reason : StopReason) (token : Continuation)
  /-- There is a failure in place of a row. -/
  | failed (token : Continuation) (error : CursorError)

namespace Leg

/-- The continuation from which the leg goes on. -/
def token : Leg α → Continuation
  | unread t _ => t
  | waiting t _ _ => t
  | front t _ _ _ _ => t
  | ended _ t => t
  | failed t _ => t

/-- The comparison key of the row that was read ahead. -/
def key? : Leg α → Option Tuple
  | front _ _ k _ _ => some k
  | _ => none

/-- The reason why there are no more rows. -/
def reason? : Leg α → Option StopReason
  | ended r _ => some r
  | _ => none

/-- The failure. -/
def error? : Leg α → Option CursorError
  | failed _ e => some e
  | _ => none

/-- What the leg waits for. -/
def wait? : Leg α → Option Wait
  | waiting _ wait _ => some wait
  | _ => none

/-- The limit for which the leg stopped. -/
def limit? (l : Leg α) : Option StopReason := l.reason?.filter StopReason.isLimit

/-- Whether the leg ran dry. -/
def isExhausted (l : Leg α) : Bool := l.reason? = some .sourceExhausted

/-- The row that was read ahead, if its key satisfies a predicate. -/
def valueIf (p : Tuple → Bool) : Leg α → Option α
  | front _ v k _ _ => if p k then some v else none
  | _ => none

/-- The leg after its row was used, if the key of the row satisfies a predicate. -/
def useIf (p : Tuple → Bool) : Leg α → Leg α
  | front t v k next rest => if p k then unread next rest else front t v k next rest
  | l => l

/-- What is still to be asked for a row. -/
def source? : Leg α → Option (Cursor α)
  | unread _ c => some c
  | waiting _ _ c => some c
  | _ => none

/-- Whether the leg is to be asked for a row now. -/
def isDue (w : World) : Leg α → Bool
  | unread _ _ => true
  | waiting _ wait _ => w.isOver wait
  | _ => false

/-- The leg with a token after its source was asked for a row. -/
def answered (key : α → Except CursorError Tuple) (t : Continuation) : Progress α → Leg α
  | .ready (.row v next rest) =>
    match key v with
    | .ok k => front t v k next rest
    | .error e => failed t e
  | .ready (.stop r t) => ended r t
  | .ready (.fail e) => failed t e
  | .pending wait rest => waiting t wait rest

/-- Asks for a row, unless there is one or there are no more. -/
def read (key : α → Except CursorError Tuple) (l : Leg α) (w : World) : World × Leg α :=
  match l.source? with
  | none => (w, l)
  | some c =>
    let (w, progress) := c.poll w
    (w, answered key l.token progress)

/-! ### Reading comes to an end -/

/-- What a leg becomes by being asked for a row or by using it. -/
inductive Step : Leg α → Leg α → Prop
  | read {t v k next rest c} {l : Leg α} : l.source? = some c → Precedes rest c →
      Step (front t v k next rest) l
  | pause {t wait rest c} {l : Leg α} : l.source? = some c → Precedes rest c →
      Step (waiting t wait rest) l
  | stop {t r c} {l : Leg α} : l.source? = some c → Step (ended r t) l
  | fail {t e c} {l : Leg α} : l.source? = some c → Step (failed t e) l
  | use {t v k next} {rest : Cursor α} : Step (unread next rest) (front t v k next rest)

theorem acc_of_source (c : Cursor α) : ∀ l : Leg α, l.source? = some c → Acc Step l := by
  induction acc_precedes c with
  | intro c _ ih =>
    refine fun l hl => ⟨_, fun l' h => ?_⟩
    cases h with
    | read hc h =>
      obtain rfl : _ = c := Option.some.inj (hc.symm.trans hl)
      exact ⟨_, fun l'' h' => by
        cases h' with
        | use => exact ih _ h _ rfl
        | read hc' | pause hc' | stop hc' | fail hc' => simp [source?] at hc'⟩
    | pause hc h =>
      obtain rfl : _ = c := Option.some.inj (hc.symm.trans hl)
      exact ih _ h _ rfl
    | stop | fail =>
      exact ⟨_, fun l'' h' => by
        cases h' with
        | read hc' | pause hc' | stop hc' | fail hc' => simp [source?] at hc'⟩
    | use => simp [source?] at hl

theorem acc_step (l : Leg α) : Acc Step l := by
  cases hl : l.source? with
  | some c => exact acc_of_source c l hl
  | none =>
    refine ⟨_, fun l' h => ?_⟩
    cases h with
    | use => exact acc_of_source _ _ rfl
    | read hc | pause hc | stop hc | fail hc => simp [hl] at hc

theorem step_read (key : α → Except CursorError Tuple) {l : Leg α} {c : Cursor α}
    (hl : l.source? = some c) (w : World) : Step (l.read key w).2 l := by
  simp only [read, hl]
  rcases hp : c.poll w with ⟨w', reply | ⟨wait, rest⟩⟩
  · rcases reply with ⟨v, next, rest⟩ | ⟨r, t⟩ | e
    · cases hk : key v with
      | ok k =>
        simp only [answered, hk]
        exact .read hl ⟨w, w', .inl ⟨_, _, hp⟩⟩
      | error e =>
        simp only [answered, hk]
        exact .fail hl
    · exact .stop hl
    · exact .fail hl
  · exact .pause hl ⟨w, w', .inr ⟨_, hp⟩⟩

theorem read_eq_or_step (key : α → Except CursorError Tuple) (l : Leg α) (w : World) :
    (l.read key w).2 = l ∨ Step (l.read key w).2 l := by
  cases hl : l.source? with
  | some c => exact .inr (step_read key hl w)
  | none => exact .inl (by simp [read, hl])

theorem exists_source_of_isDue {w : World} {l : Leg α} (h : l.isDue w) :
    ∃ c, l.source? = some c := by
  cases l <;> simp_all [isDue, source?]

theorem useIf_eq_or_step (p : Tuple → Bool) (l : Leg α) : l.useIf p = l ∨ Step (l.useIf p) l := by
  cases l with
  | front =>
    simp only [useIf]
    split
    · exact .inr .use
    · exact .inl rfl
  | _ => exact .inl rfl

theorem step_useIf {p : Tuple → Bool} {l : Leg α} {v : α} (h : l.valueIf p = some v) :
    Step (l.useIf p) l := by
  cases l with
  | front =>
    simp only [valueIf] at h
    split at h
    · simp only [useIf, *, if_true]; exact .use
    · simp at h
  | _ => simp [valueIf] at h

end Leg

end ResumableQuery.Cursor
