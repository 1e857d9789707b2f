import Mathlib.Data.List.Forall2
import ResumableQuery.Cursor.FlatMap
import ResumableQuery.Cursor.Source
import ResumableQuery.Cursor.Adapter
import ResumableQuery.Proofs.Cursor.Promises

/-!
# What a pipeline hands out

The results of a pipeline are those of the applications one after the other, whatever the depth, and
the rows of a nested iteration are those of the inner cursors one after the other.  What is under
way counts as what it will come to: that is the invariant, and a pipeline keeps it when it hands
over an application and when it hands out a result.

Only the failure of a source shows how far the pipeline had read ahead.  It is reported at once, and
what is under way is given up (`run_of_failing_source`).
-/

namespace ResumableQuery.Cursor

variable {S : World → World → Prop} {w w₀ : World}

/-! ### Ends -/

/-- How a cursor over a source ends once the source has: a limit of the source is a limit of the
cursor, at the continuation that it makes of the source's. -/
def Ending.settled (place : Continuation → Continuation) : Ending → Ending
  | .stopped r t => if r.isLimit then .stopped r (place t) else .stopped .sourceExhausted .done
  | .failed e => .failed e

/-- What comes of everything that is handed to a pipeline of some depth: all of it if the source
stops.  If the source fails, then what had to make room by then. -/
def kept (depth : Nat) (l : List κ) : Ending → List κ
  | .stopped _ _ => l
  | .failed _ => l.take (l.length + 1 - depth)

theorem kept_cons {depth : Nat} {l : List κ} (h : depth ≤ l.length + 1) (x : κ) (e : Ending) :
    kept depth (x :: l) e = x :: kept depth l e := by
  cases e with
  | stopped => rfl
  | failed =>
    rw [kept, kept, List.length_cons, Nat.sub_add_comm h, List.take_succ_cons]

/-- Something is lost only if the source fails. -/
theorem kept_eq_or (depth : Nat) (l : List κ) (e : Ending) :
    kept depth l e = l ∨ kept depth l e <+: l ∧ ∃ err, e = .failed err := by
  cases e with
  | stopped => exact .inl rfl
  | failed err => exact .inr ⟨List.take_prefix _ _, err, rfl⟩

theorem kept_failed_of_lt {depth : Nat} {l : List κ} (h : l.length < depth) (e : CursorError) :
    kept depth l (.failed e) = [] := by
  rw [kept, Nat.sub_eq_zero_of_le h, List.take_zero]

/-- Where a queue is full its oldest member makes room. -/
theorem exists_oldest {depth : Nat} {l : List κ} (h : depth ≤ l.length + 1) (x : κ) :
    ∃ y l', l ++ [x] = y :: l' ∧ l'.length = l.length ∧
      ∀ more e, kept depth (l ++ x :: more) e = y :: kept depth (l' ++ more) e := by
  obtain ⟨y, l', hl⟩ := List.exists_cons_of_ne_nil (List.concat_ne_nil x l)
  have hlen := congrArg List.length hl
  rw [List.length_append, List.length_singleton, List.length_cons] at hlen
  refine ⟨y, l', hl, (Nat.succ.inj hlen).symm, fun more e => ?_⟩
  rw [List.append_cons, hl, List.cons_append, kept_cons]
  rw [List.length_append]
  omega

/-! ### Mapping -/

/-- The result of an application at a continuation, before everything that comes after it. -/
def precede (x : Except CursorError β × Continuation) (o : Outcome β) : Outcome β :=
  match x with
  | (.ok u, t) => ((u, t) :: o.1, o.2)
  | (.error e, _) => ([], .failed e)

/-- The results of applications up to the first one that fails, and then an end. -/
def mapped (l : List (Except CursorError β × Continuation)) (e : Ending) : Outcome β :=
  l.foldr precede ([], e)

/-- Wherever the world goes, the application under way comes to a result. -/
def Carries (S : World → World → Prop) (w : World) (x : Flight β × Continuation)
    (y : Except CursorError β × Continuation) : Prop :=
  x.1.Gives S w (· = y.1) ∧ x.2 = y.2

theorem Carries.later (hS : World.Passage S) {x : Flight β × Continuation}
    {y : Except CursorError β × Continuation} {w' : World} (hw : S w w') (h : Carries S w x y) :
    Carries S w' x y :=
  ⟨Flight.Gives.later hS h.1 hw, h.2⟩

section Mapping

variable (hS : World.Passage S) {queue : Queue β Continuation}
  {due : List (Except CursorError β × Continuation)}

include hS

theorem promises_deliver {x : Except CursorError β × Continuation}
    (hq : List.Forall₂ (Carries S w) queue (x :: due)) {ending : Cursor β}
    {go : Queue β Continuation → Cursor β} {P : Outcome β → Prop}
    (hfail : ∀ e, x.1 = .error e → P ([], .failed e))
    (hgo : ∀ u, x.1 = .ok u → ∀ w' queue', S w w' → List.Forall₂ (Carries S w') queue' due →
      (go queue').Promises S w' fun o => P ((u, x.2) :: o.1, o.2)) :
    (deliver .plain queue ending go).Promises S w P := by
  obtain ⟨r, t⟩ := x
  cases hq with
  | @cons y _ queue _ hy hrest =>
    obtain ⟨flight, token⟩ := y
    obtain ⟨hgives, htoken⟩ := hy
    obtain rfl : token = t := htoken
    refine promises_join hS (hgives : flight.Gives S w (· = r)) fun x hx w₁ hw₁ => ?_
    subst hx
    cases x with
    | ok u =>
      intro w₂ hw₂
      have hw := hS.trans hw₁ hw₂
      exact hgo u rfl w₂ queue hw (hrest.imp fun _ _ => Carries.later hS hw)
    | error e => exact promises_failWith hS (hfail e rfl)

theorem promises_flush (hq : List.Forall₂ (Carries S w) queue due) {ending : Cursor β} {e : Ending}
    (hending : ∀ w', ending.Promises S w' (· = ([], e))) :
    (flush .plain ending due.length queue).Promises S w (· = mapped due e) := by
  induction due generalizing queue w with
  | nil => exact hending w
  | cons x due ih =>
    obtain ⟨r, t⟩ := x
    refine promises_deliver hS hq (fun err herr => ?_) fun u hu w' queue' _ hq' => ?_
    · obtain rfl : r = .error err := herr
      rfl
    · obtain rfl : r = .ok u := hu
      refine (ih hq').mono ?_
      rintro _ rfl
      rfl

omit hS in
theorem promises_stopFor (r : StopReason) (t : Continuation) (w : World) :
    (stopFor r t : Cursor β).Promises S w (· = ([], (Ending.stopped r t).settled id)) := by
  unfold stopFor Ending.settled
  simp only
  split <;> rfl

/-- A pipeline comes to the results of the applications under way and of those that are still to be
handed over. -/
theorem promises_pipelineFrom {f : α → Job β} {g : α → Except CursorError β} {depth : Nat}
    {source : Cursor α} {P : Outcome α → Prop} (hsource : source.Promises S w P)
    (hf : ∀ o, P o → ∀ x ∈ o.1, (f x.1).Gives S w (· = g x.1))
    (hq : List.Forall₂ (Carries S w) queue due) (hlen : due.length < depth) :
    (pipelineFrom .plain f depth queue source).Promises S w fun o => ∃ o', P o' ∧
      o = mapped (kept depth (due ++ o'.1.map fun x => (g x.1, x.2)) o'.2) (o'.2.settled id) := by
  induction source generalizing w P queue due with
  | row v t rest ih =>
    obtain ⟨o₀, ho₀⟩ := (hsource w (hS.refl w)).exists_outcome hS
    have hv : (f v).Gives S w (· = g v) := hf _ ho₀ (v, t) List.mem_cons_self
    obtain ⟨hw₁, hflight⟩ := gives_start hS hv depth
    have hf' {w'} (hw' : S w w') (o : Outcome α) (ho : P ((v, t) :: o.1, o.2)) :
        ∀ x ∈ o.1, (f x.1).Gives S w' (· = g x.1) := fun x hx =>
      Job.Gives.later hS (hf _ ho x (List.mem_cons_of_mem _ hx)) hw'
    have hq₁ : List.Forall₂ (Carries S (Flight.start depth (f v) w).1)
        (queue ++ [((Flight.start depth (f v) w).2, t)]) (due ++ [(g v, t)]) :=
      List.rel_append (hq.imp fun _ _ => Carries.later hS hw₁) (.cons ⟨hflight, rfl⟩ .nil)
    have hlen₁ := hq₁.length_eq
    refine promises_perform hw₁ ?_
    generalize (Flight.start depth (f v) w).1 = w₁ at *
    simp only [View.plain]
    split
    · rename_i hshort
      refine (ih () (hsource w₁ hw₁) (hf' hw₁) hq₁ (hlen₁ ▸ hshort)).mono ?_
      rintro _ ⟨o, ho, rfl⟩
      exact ⟨_, ho, by rw [List.append_assoc]; rfl⟩
    · rename_i hfull
      rw [hlen₁, List.length_append, List.length_singleton] at hfull
      obtain ⟨x, due', hdue, hlen', hkept⟩ := exists_oldest (Nat.not_lt.1 hfull) (g v, t)
      rw [hdue] at hq₁
      refine promises_deliver hS hq₁ (fun e he => ⟨_, ho₀, ?_⟩) fun u hu w' queue' hw' hq' => ?_
      · obtain ⟨r, t'⟩ := x
        obtain rfl : r = .error e := he
        rw [List.map_cons, hkept]
        rfl
      · have hw := hS.trans hw₁ hw'
        refine (ih () (hsource w' hw) (hf' hw) hq' (by omega)).mono ?_
        rintro _ ⟨o, ho, rfl⟩
        refine ⟨_, ho, ?_⟩
        obtain ⟨r, t'⟩ := x
        obtain rfl : r = .ok u := hu
        rw [List.map_cons, hkept]
        rfl
  | stop r t =>
    have hflush := promises_flush hS hq fun w' => promises_stopFor r t w'
    rw [← hq.length_eq] at hflush
    refine hflush.mono fun o ho => ⟨_, hsource, ?_⟩
    rw [ho, List.map_nil, List.append_nil]
    rfl
  | fail e =>
    refine promises_failWith hS ⟨_, hsource, ?_⟩
    rw [List.map_nil, List.append_nil, kept_failed_of_lt hlen]
    rfl
  | consult k ih => exact ih w hsource hf hq hlen
  | commit w' c ih =>
    obtain ⟨hw, hc⟩ := hsource
    exact ⟨hw, ih hc (fun o ho x hx => Job.Gives.later hS (hf o ho x hx) hw)
      (hq.imp fun _ _ => Carries.later hS hw) hlen⟩
  | pause wait rest ih =>
    intro w' hw
    exact ih () (hsource w' hw) (fun o ho x hx => Job.Gives.later hS (hf o ho x hx) hw)
      (hq.imp fun _ _ => Carries.later hS hw) hlen

/-- A pipeline comes to the results of its applications, as many as it keeps. -/
theorem promises_pipelined {f : α → Job β} {g : α → Except CursorError β} {source : Cursor α}
    {P : Outcome α → Prop} (hsource : source.Promises S w P)
    (hf : ∀ o, P o → ∀ x ∈ o.1, (f x.1).Gives S w (· = g x.1)) (depth : Nat) :
    (pipelined f depth source).Promises S w fun o => ∃ o', P o' ∧
      o = mapped (kept (max 1 depth) (o'.1.map fun x => (g x.1, x.2)) o'.2) (o'.2.settled id) :=
  have hdepth : 0 < max 1 depth := Nat.le_max_left _ _
  promises_pipelineFrom hS hsource hf .nil hdepth

/-- A pipeline over a source that comes to a certain outcome hands out the results of its
applications, as many as it keeps. -/
theorem run_pipelined {source : Cursor α} {o : Outcome α} (hsource : source.Promises S w (· = o))
    {f : α → Job β} {g : α → Except CursorError β}
    (hf : ∀ x ∈ o.1, (f x.1).Gives S w (· = g x.1)) (depth : Nat) :
    ((pipelined f depth source).run w).2 =
      mapped (kept (max 1 depth) (o.1.map fun x => (g x.1, x.2)) o.2) (o.2.settled id) := by
  have hf' : ∀ o', o' = o → ∀ x ∈ o'.1, (f x.1).Gives S w (· = g x.1) := by
    rintro _ rfl
    exact hf
  obtain ⟨_, rfl, hrun⟩ := (promises_pipelined hS hsource hf' depth).run hS
  exact hrun

end Mapping

/-! ### Nested iteration -/

/-- An inner cursor that is to be opened: for which outer value, what is known of that value, and
where the inner cursor goes on. -/
structure Opening (α : Type) where
  value : α
  outer : OuterValue
  start : Continuation

/-- The rows of an inner cursor with the continuations of the nested iteration. -/
def OuterValue.place (o : OuterValue) (rows : List (β × Continuation)) : List (β × Continuation) :=
  rows.map fun x => (x.1, o.position x.2)

/-- The inner cursors that a nested iteration opens for the rows of its outer cursor, which stands
at `outer` before the first of them. -/
def openings (check : Option (α → Bytes)) (recorded : Recorded) (outer : Continuation) :
    List (α × Continuation) → List (Opening α)
  | [] => []
  | (v, t) :: rows =>
    ⟨v, ⟨outer, check.map (· v)⟩, innerStart recorded check.isSome (check.map (· v))⟩ ::
      openings check none t rows

theorem start_of_mem_openings {check : Option (α → Bytes)} {outer : Continuation}
    {rows : List (α × Continuation)} {x : Opening α} (h : x ∈ openings check none outer rows) :
    x.start = .start := by
  induction rows generalizing outer with
  | nil => cases h
  | cons r rows ih =>
    rcases List.mem_cons.1 h with rfl | h
    · rfl
    · exact ih h

theorem exists_mem_of_mem_openings {check : Option (α → Bytes)} {recorded : Recorded}
    {outer : Continuation} {rows : List (α × Continuation)} {x : Opening α}
    (h : x ∈ openings check recorded outer rows) : ∃ t, (x.value, t) ∈ rows := by
  induction rows generalizing recorded outer with
  | nil => cases h
  | cons r rows ih =>
    rcases List.mem_cons.1 h with rfl | h
    · exact ⟨r.2, List.mem_cons_self⟩
    · obtain ⟨t, ht⟩ := ih h
      exact ⟨t, List.mem_cons_of_mem _ ht⟩

/-- The rows of inner cursors one after the other, up to the first one that stops for a limit or
fails, and then an end.  What may come of an inner cursor is a relation of its value and start. -/
inductive Drains (Q : α → Continuation → Outcome β → Prop) :
    List (Opening α) → Ending → Outcome β → Prop
  | nil {e} : Drains Q [] e ([], e)
  | limit {x xs e rows r t} (inner : Q x.value x.start (rows, .stopped r t))
      (isLimit : r.isLimit = true) :
      Drains Q (x :: xs) e (x.outer.place rows, .stopped r (x.outer.position t))
  | failed {x xs e rows err} (inner : Q x.value x.start (rows, .failed err)) :
      Drains Q (x :: xs) e (x.outer.place rows, .failed err)
  | next {x xs e rows r t o} (inner : Q x.value x.start (rows, .stopped r t))
      (dry : r.isLimit = false) (rest : Drains Q xs e o) :
      Drains Q (x :: xs) e (x.outer.place rows ++ o.1, o.2)

/-- A cursor was opened that promises an outcome of a kind, wherever the world goes; a refusal
counts as a cursor that fails at once. -/
def OpensAs (S : World → World → Prop) (w : World) (Q : Outcome β → Prop) :
    Except CursorError (Cursor β) → Prop
  | .ok c => ∀ w', S w w' → c.Promises S w' Q
  | .error e => Q ([], .failed e)

/-- Wherever the world goes, the inner cursor under way comes to an outcome of its opening. -/
def Enters (S : World → World → Prop) (w₀ w : World) (Q : α → Continuation → Outcome β → Prop)
    (x : Flight (Cursor β) × OuterValue) (y : Opening α) : Prop :=
  x.1.Gives S w (OpensAs S w₀ (Q y.value y.start)) ∧ x.2 = y.outer

section Nested

variable (hS : World.Passage S) {Q : α → Continuation → Outcome β → Prop}
  {queue : Queue (Cursor β) OuterValue} {due : List (Opening α)}

theorem Enters.later (hS : World.Passage S) {x : Flight (Cursor β) × OuterValue} {y : Opening α}
    {w' : World} (hw : S w w') (h : Enters S w₀ w Q x y) : Enters S w₀ w' Q x y :=
  ⟨Flight.Gives.later hS h.1 hw, h.2⟩

include hS

theorem promises_inner {o : OuterValue} {c : Cursor β} {R P : Outcome β → Prop}
    (hc : c.Promises S w R) {rest : Unit → Cursor β}
    (hlimit : ∀ rows r t, R (rows, .stopped r t) → r.isLimit = true →
      P (o.place rows, .stopped r (o.position t)))
    (hfail : ∀ rows e, R (rows, .failed e) → P (o.place rows, .failed e))
    (hnext : ∀ rows r t, R (rows, .stopped r t) → r.isLimit = false → ∀ w', S w w' →
      (rest ()).Promises S w' fun more => P (o.place rows ++ more.1, more.2)) :
    (inner o rest c).Promises S w P := by
  induction c generalizing w R P with
  | row v t more ih =>
    intro w' hw
    refine ih () (hc w' hw) (fun rows r t' h => hlimit _ r t' h) (fun rows e h => hfail _ e h) ?_
    intro rows r t' h hr w'' hw'
    exact hnext _ r t' h hr w'' (hS.trans hw hw')
  | stop r t =>
    rw [inner]
    split
    · exact hlimit [] r t hc (by assumption)
    · have hr : r.isLimit = false := Bool.eq_false_iff.2 (by assumption)
      exact hnext [] r t hc hr w (hS.refl w)
  | fail e => exact hfail [] e hc
  | consult k ih => exact ih w hc hlimit hfail hnext
  | commit w' c ih =>
    obtain ⟨hw, hc⟩ := hc
    exact ⟨hw, ih hc hlimit hfail fun rows r t h hr w'' hw' =>
      hnext rows r t h hr w'' (hS.trans hw hw')⟩
  | pause wait more ih =>
    intro w' hw
    exact ih () (hc w' hw) hlimit hfail fun rows r t h hr w'' hw' =>
      hnext rows r t h hr w'' (hS.trans hw hw')

theorem promises_enter {x : Opening α} (hw₀ : S w₀ w)
    (hq : List.Forall₂ (Enters S w₀ w Q) queue (x :: due)) {ending : Cursor β}
    {go : Queue (Cursor β) OuterValue → Cursor β} {P : Outcome β → Prop}
    (hlimit : ∀ rows r t, Q x.value x.start (rows, .stopped r t) → r.isLimit = true →
      P (x.outer.place rows, .stopped r (x.outer.position t)))
    (hfail : ∀ rows e, Q x.value x.start (rows, .failed e) → P (x.outer.place rows, .failed e))
    (hnext : ∀ rows r t, Q x.value x.start (rows, .stopped r t) → r.isLimit = false →
      ∀ w' queue', S w w' → List.Forall₂ (Enters S w₀ w' Q) queue' due →
        (go queue').Promises S w' fun more => P (x.outer.place rows ++ more.1, more.2)) :
    (enter queue ending go).Promises S w P := by
  cases hq with
  | @cons y _ queue _ hy hrest =>
    obtain ⟨flight, o⟩ := y
    obtain ⟨hgives, ho⟩ := hy
    obtain rfl : o = x.outer := ho
    refine promises_join hS hgives fun r hr w₁ hw₁ => ?_
    cases r with
    | ok c =>
      refine promises_inner hS (hr w₁ (hS.trans hw₀ hw₁)) hlimit hfail ?_
      intro rows r t h hdry w₂ hw₂
      have hw := hS.trans hw₁ hw₂
      exact hnext rows r t h hdry w₂ queue hw (hrest.imp fun _ _ => Enters.later hS hw)
    | error e => exact promises_failWith hS (hfail [] e hr)

theorem promises_flushInner (hw₀ : S w₀ w) (hq : List.Forall₂ (Enters S w₀ w Q) queue due)
    {ending : Cursor β} {e : Ending} (hending : ∀ w', ending.Promises S w' (· = ([], e))) :
    (flushInner ending due.length queue).Promises S w (Drains Q due e) := by
  induction due generalizing queue w with
  | nil =>
    refine (hending w).mono ?_
    rintro _ rfl
    exact .nil
  | cons x due ih =>
    refine promises_enter hS hw₀ hq (fun rows r t h hr => .limit h hr)
      (fun rows e h => .failed h) ?_
    intro rows r t h hr w' queue' hw' hq'
    exact (ih (hS.trans hw₀ hw') hq').mono fun o ho => .next h hr ho

/-- Where a nested iteration goes on after a limit of its outer cursor. -/
def OuterValue.atLimit (t : Continuation) : Continuation := OuterValue.position ⟨t, none⟩ .start

omit hS in
theorem promises_ending (r : StopReason) (t : Continuation) (w : World) :
    (Nesting.ending r t : Cursor β).Promises S w
      (· = ([], (Ending.stopped r t).settled OuterValue.atLimit)) := by
  unfold Nesting.ending Ending.settled
  simp only
  split <;> rfl

/-- A nested iteration comes to the rows of the inner cursors under way and of those that are still
to be opened. -/
theorem promises_rows {n : Nesting α β} {source : Cursor α} {P : Outcome α → Prop}
    (hsource : source.Promises S w P) (hw₀ : S w₀ w) {recorded : Recorded} {outer : Continuation}
    (hjobs : ∀ o, P o → ∀ x ∈ openings n.check recorded outer o.1,
      (n.openInner x.value x.start).Gives S w₀ (OpensAs S w₀ (Q x.value x.start)))
    (hq : List.Forall₂ (Enters S w₀ w Q) queue due) (hlen : due.length < n.depth) :
    (n.rows recorded outer queue source).Promises S w fun o => ∃ o', P o' ∧
      Drains Q (kept n.depth (due ++ openings n.check recorded outer o'.1) o'.2)
        (o'.2.settled OuterValue.atLimit) o := by
  induction source generalizing w P queue due recorded outer with
  | row v t rest ih =>
    obtain ⟨o₀, ho₀⟩ := (hsource w (hS.refl w)).exists_outcome hS
    let x : Opening α := ⟨v, ⟨outer, n.check.map (· v)⟩,
      innerStart recorded n.check.isSome (n.check.map (· v))⟩
    have hx := hjobs _ ho₀ x List.mem_cons_self
    obtain ⟨hw₁, hflight⟩ := gives_start hS (Job.Gives.later hS hx hw₀) n.depth
    have hjobs' (o : Outcome α) (ho : P ((v, t) :: o.1, o.2)) : ∀ y ∈ openings n.check none t o.1,
        (n.openInner y.value y.start).Gives S w₀ (OpensAs S w₀ (Q y.value y.start)) :=
      fun y hy => hjobs _ ho y (List.mem_cons_of_mem _ hy)
    have hq₁ : List.Forall₂ (Enters S w₀ (Flight.start n.depth (n.openInner x.value x.start) w).1 Q)
        (queue ++ [((Flight.start n.depth (n.openInner x.value x.start) w).2, x.outer)])
        (due ++ [x]) :=
      List.rel_append (hq.imp fun _ _ => Enters.later hS hw₁) (.cons ⟨hflight, rfl⟩ .nil)
    have hlen₁ := hq₁.length_eq
    rw [Nesting.rows]
    refine promises_perform hw₁ ?_
    generalize (Flight.start n.depth (n.openInner x.value x.start) w).1 = w₁ at *
    simp only
    split
    · rename_i hshort
      refine (ih () (hsource w₁ hw₁) (hS.trans hw₀ hw₁) hjobs' hq₁ (hlen₁ ▸ hshort)).mono ?_
      rintro o ⟨o', ho', hdrains⟩
      rw [List.append_assoc] at hdrains
      exact ⟨_, ho', hdrains⟩
    · rename_i hfull
      rw [hlen₁, List.length_append, List.length_singleton] at hfull
      obtain ⟨y, due', hdue, hlen', hkept⟩ := exists_oldest (Nat.not_lt.1 hfull) x
      rw [hdue] at hq₁
      refine promises_enter hS (hS.trans hw₀ hw₁) hq₁ (fun rows r t h hr => ⟨_, ho₀, ?_⟩)
        (fun rows e h => ⟨_, ho₀, ?_⟩) fun rows r t h hr w' queue' hw' hq' => ?_
      · rw [openings, hkept]
        exact .limit h hr
      · rw [openings, hkept]
        exact .failed h
      · have hw := hS.trans hw₁ hw'
        refine (ih () (hsource w' hw) (hS.trans hw₀ hw) hjobs' hq' (by omega)).mono ?_
        rintro o ⟨o', ho', hdrains⟩
        refine ⟨_, ho', ?_⟩
        rw [openings, hkept]
        exact .next h hr hdrains
  | stop r t =>
    have hflush := promises_flushInner hS hw₀ hq fun w' => promises_ending r t w'
    rw [← hq.length_eq] at hflush
    refine hflush.mono fun o ho => ⟨_, hsource, ?_⟩
    rw [openings, List.append_nil]
    exact ho
  | fail e =>
    refine promises_failWith hS ⟨_, hsource, ?_⟩
    rw [openings, List.append_nil, kept_failed_of_lt hlen]
    exact .nil
  | consult k ih => exact ih w hsource hw₀ hjobs hq hlen
  | commit w' c ih =>
    obtain ⟨hw, hc⟩ := hsource
    exact ⟨hw, ih hc (hS.trans hw₀ hw) hjobs (hq.imp fun _ _ => Enters.later hS hw) hlen⟩
  | pause wait rest ih =>
    intro w' hw
    exact ih () (hsource w' hw) (hS.trans hw₀ hw) hjobs
      (hq.imp fun _ _ => Enters.later hS hw) hlen

omit hS in
theorem openAt_eq_rows {n : Nesting α β} {c u : Continuation} {recorded : Recorded}
    (hresume : Nesting.resume c = .ok (u, recorded)) (hu : u ≠ .done)
    {openOuter : Continuation → Except CursorError (Cursor α)} {source : Cursor α}
    (hopen : openOuter u = .ok source) : n.openAt openOuter c =
      .ok (({ n with depth := max 1 n.depth } : Nesting α β).rows recorded u [] source) := by
  have hdone : u.isDone = false := by
    cases u with
    | done => exact absurd rfl hu
    | start | resume => rfl
  rw [Nesting.openAt, hresume]
  show (openOuter u >>= _) = _
  rw [hopen]
  show (if u.isDone = true then _ else _) = _
  rw [if_neg (Bool.eq_false_iff.1 hdone)]
  rfl

/-- A nested iteration that is opened comes to the rows of the inner cursors that it keeps. -/
theorem exists_promises_openAt {n : Nesting α β} {c u : Continuation} {recorded : Recorded}
    (hresume : Nesting.resume c = .ok (u, recorded)) (hu : u ≠ .done)
    {openOuter : Continuation → Except CursorError (Cursor α)} {source : Cursor α}
    (hopen : openOuter u = .ok source) {P : Outcome α → Prop} (hsource : source.Promises S w P)
    (hjobs : ∀ o, P o → ∀ x ∈ openings n.check recorded u o.1,
      (n.openInner x.value x.start).Gives S w (OpensAs S w (Q x.value x.start))) :
    ∃ cur, n.openAt openOuter c = .ok cur ∧ cur.Promises S w fun o => ∃ o', P o' ∧
      Drains Q (kept (max 1 n.depth) (openings n.check recorded u o'.1) o'.2)
        (o'.2.settled OuterValue.atLimit) o := by
  have hdepth : 0 < max 1 n.depth := Nat.le_max_left _ _
  refine ⟨_, openAt_eq_rows hresume hu hopen, ?_⟩
  exact promises_rows hS (n := { n with depth := max 1 n.depth }) hsource (hS.refl w) hjobs
    .nil hdepth

theorem exists_run_openAt {n : Nesting α β} {c u : Continuation} {recorded : Recorded}
    (hresume : Nesting.resume c = .ok (u, recorded)) (hu : u ≠ .done)
    {openOuter : Continuation → Except CursorError (Cursor α)} {source : Cursor α}
    (hopen : openOuter u = .ok source) {P : Outcome α → Prop} (hsource : source.Promises S w P)
    (hjobs : ∀ o, P o → ∀ x ∈ openings n.check recorded u o.1,
      (n.openInner x.value x.start).Gives S w (OpensAs S w (Q x.value x.start))) :
    ∃ cur, n.openAt openOuter c = .ok cur ∧ ∃ o, P o ∧
      Drains Q (kept (max 1 n.depth) (openings n.check recorded u o.1) o.2)
        (o.2.settled OuterValue.atLimit) (cur.run w).2 := by
  obtain ⟨cur, hcur, hpromises⟩ := exists_promises_openAt hS hresume hu hopen hsource hjobs
  exact ⟨cur, hcur, hpromises.run hS⟩

end Nested

end ResumableQuery.Cursor
