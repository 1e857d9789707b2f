import ResumableQuery.Cursor.FlatMap
import ResumableQuery.Cursor.Merge
import ResumableQuery.Proofs.Cursor.Follows
import ResumableQuery.Proofs.Position
import ResumableQuery.Search.Scan

/-!
# Where the end continuation stands

The end continuation marks a source that ran dry, and nothing else.  `WellMarked` says so of
everything that a cursor may still hand out, whatever happens to the world in between.  All sources
are well marked, all adapters keep it, and nested iterations and merges are well marked whatever
their inputs are, since their continuations are positions of their own.
-/

namespace ResumableQuery.Cursor

/-- No row carries the end continuation, and an end carries it exactly if the source ran dry. -/
def WellMarked : Cursor α → Prop
  | row _ t rest => t ≠ .done ∧ (rest ()).WellMarked
  | stop r t => t = .done ↔ r = .sourceExhausted
  | fail _ => True
  | consult k => ∀ w, (k w).WellMarked
  | commit _ c => c.WellMarked
  | pause _ rest => (rest ()).WellMarked

variable {c : Cursor α} {t : Continuation} {r : StopReason}

/-! ### Asking -/

/-- What is left after asking is well marked again. -/
theorem WellMarked.next (h : c.WellMarked) (w : World) :
    match (c.next w).2 with
    | .row _ _ rest => rest.WellMarked
    | .stop r t => t = .done ↔ r = .sourceExhausted
    | .fail _ => True := by
  induction c generalizing w with
  | row => exact h.2
  | stop => exact h
  | fail => trivial
  | consult k ih => exact ih w (h w) w
  | commit x c ih => exact ih h x
  | pause wait rest ih => exact ih () h (w.await wait)

/-! ### Ends -/

theorem wellMarked_exhausted : (exhausted : Cursor α).WellMarked := iff_of_true rfl rfl

theorem wellMarked_stop (hr : r.isLimit = true) (ht : t ≠ .done) :
    (stop r t : Cursor α).WellMarked := by
  refine iff_of_false ht ?_
  rintro rfl
  cases hr

theorem wellMarked_stopFor (ht : t ≠ .done) : (stopFor r t : Cursor α).WellMarked := by
  rw [stopFor]
  split
  · rename_i hr
    exact wellMarked_stop hr ht
  · exact wellMarked_exhausted

theorem wellMarked_consult {k : World → Cursor α} (h : ∀ w, (k w).WellMarked) :
    (consult k).WellMarked :=
  h

theorem wellMarked_commit (h : c.WellMarked) (w : World) : (commit w c).WellMarked := h

theorem wellMarked_perform {act : World → World × β} {go : β → Cursor α}
    (h : ∀ w, (go (act w).2).WellMarked) : (perform act go).WellMarked :=
  h

theorem wellMarked_wait (h : c.WellMarked) (n : Nat) : (wait n c).WellMarked := by
  induction n with
  | zero => exact h
  | succ n ih => exact ih

theorem wellMarked_ofExcept {x : Except CursorError (Cursor α)}
    (h : ∀ c, x = .ok c → c.WellMarked) : (ofExcept x).WellMarked := by
  cases x with
  | ok c => exact h c rfl
  | error e => trivial

/-! ### Sources -/

theorem wellMarked_rowsFrom (index : UInt64) (items : List α) : (rowsFrom index items).WellMarked := by
  induction items generalizing index with
  | nil => exact wellMarked_exhausted
  | cons a items ih => exact ⟨nofun, ih _⟩

theorem wellMarked_list {items : List α} (h : list items t = .ok c) : c.WellMarked := by
  rw [list.eq_def] at h
  split at h
  · cases h
    exact wellMarked_exhausted
  · split at h <;> cases h <;> exact wellMarked_rowsFrom _ _

theorem wellMarked_future (items : Except CursorError (List α)) (t : Continuation) :
    (future items t).WellMarked := by
  refine wellMarked_wait (wellMarked_ofExcept fun c h => ?_) 1
  cases items with
  | ok items => exact wellMarked_list h
  | error e => cases h

namespace KeyScan

theorem token_of_fetch {s : KeyScan} {st st' : State} {w : World}
    (h : (s.fetch st w).2 = .ok st') : st'.token = st.token := by
  rw [fetch] at h
  split at h
  · split at h <;> cases h
    rfl
  · cases h
    rfl

theorem wellMarked_pairs (s : KeyScan) (count : Nat) {st : State} (h : st.token ≠ .done) :
    (s.pairs count st).WellMarked := by
  induction count generalizing st with
  | zero => exact wellMarked_stop rfl h
  | succ count ih =>
    rw [pairs]
    refine wellMarked_perform fun w => ?_
    cases hfetch : (s.fetch st w).2 with
    | error e => trivial
    | ok st' =>
      dsimp only
      split
      · exact wellMarked_exhausted
      · refine wellMarked_perform fun w' => ?_
        split
        · rename_i key _ _ _ _
          have ht := KeyPosition.toContinuation_ne_done ⟨key⟩
          exact ⟨ht, ih ht⟩
        · exact wellMarked_stop rfl (token_of_fetch hfetch ▸ h)

theorem wellMarked_openAt {s : KeyScan} {w : World} {c : Cursor (Bytes × Bytes)}
    (h : s.openAt w t = .ok c) : c.WellMarked := by
  rw [openAt.eq_def] at h
  split at h
  · cases h
    exact wellMarked_exhausted
  · rename_i ht
    split at h
    · cases h
    · cases h
      exact wellMarked_pairs _ _ ht

end KeyScan

/-! ### Adapters -/

theorem WellMarked.map (h : c.WellMarked) (f : α → β) : (c.map f).WellMarked := by
  induction c with
  | row v t rest ih => exact ⟨h.1, ih () h.2⟩
  | stop => exact h
  | fail => trivial
  | consult k ih => exact fun w => ih w (h w)
  | commit w c ih => exact ih h
  | pause wait rest ih => exact ih () h

theorem WellMarked.tryMap (h : c.WellMarked) (f : α → Except CursorError β) :
    (c.tryMap f).WellMarked := by
  induction c with
  | row v t rest ih =>
    rw [Cursor.tryMap]
    split
    · exact ⟨h.1, ih () h.2⟩
    · trivial
  | stop => exact h
  | fail => trivial
  | consult k ih => exact fun w => ih w (h w)
  | commit w c ih => exact ih h
  | pause wait rest ih => exact ih () h

theorem WellMarked.filter (h : c.WellMarked) (p : α → Bool) : (c.filter p).WellMarked := by
  induction c with
  | row v t rest ih =>
    rw [Cursor.filter]
    split
    · exact ⟨h.1, ih () h.2⟩
    · exact ih () h.2
  | stop => exact h
  | fail => trivial
  | consult k ih => exact fun w => ih w (h w)
  | commit w c ih => exact ih h
  | pause wait rest ih => exact ih () h

theorem WellMarked.limitFrom (h : c.WellMarked) (p : ScanProperties) (skip returned : Nat) :
    (limitFrom p skip returned c).WellMarked := by
  induction c generalizing skip returned with
  | row v t rest ih =>
    rw [Cursor.limitFrom]
    split
    · refine ⟨h.1, ?_⟩
      dsimp only
      split
      · exact wellMarked_stopFor h.1
      · exact ih () h.2 _ _
    · exact ih () h.2 _ _
  | stop => exact h
  | fail => trivial
  | consult k ih => exact fun w => ih w (h w) _ _
  | commit w c ih => exact ih h _ _
  | pause wait rest ih => exact ih () h _ _

theorem WellMarked.skipThenLimit (h : c.WellMarked) {p : ScanProperties} (hp : p.limit ≠ some 0)
    (t : Continuation) : (skipThenLimit p t c).WellMarked := by
  rw [Cursor.skipThenLimit, reachedLimit_zero hp]
  exact h.limitFrom ..

/-! ### Pipelines -/

theorem wellMarked_jobRun {job : Job β} {go : Except CursorError β → Cursor γ}
    (h : ∀ x, (go x).WellMarked) : (job.run go).WellMarked := by
  cases job with
  | compute n result => exact wellMarked_wait (c := consult fun w => go (result w)) (fun _ => h _) n
  | find l result =>
    rw [Job.run]
    exact wellMarked_perform fun _ => h _

theorem wellMarked_collect {job : Job β} {id : TaskId} {go : Except CursorError β → Cursor γ}
    (h : ∀ x, (go x).WellMarked) : (job.collect id go).WellMarked := by
  cases job with
  | compute n result => exact fun _ => h _
  | find l result =>
    intro w
    dsimp only
    split
    · exact h _
    · exact wellMarked_jobRun h

theorem wellMarked_join {flight : Flight β} {go : Except CursorError β → Cursor γ}
    (h : ∀ x, (go x).WellMarked) : (flight.join go).WellMarked := by
  cases flight with
  | inPlace job => exact wellMarked_jobRun h
  | task id job =>
    intro w
    dsimp only
    split <;> exact wellMarked_collect h

theorem wellMarked_failWith (queue : Queue β κ) (e : CursorError) :
    WellMarked (failWith queue e : Cursor γ) := by
  rw [failWith]
  exact wellMarked_perform fun _ => trivial

/-- No application under way was started for a row that carries the end continuation. -/
def QueueMarked (queue : Queue β Continuation) : Prop := ∀ e ∈ queue, e.2 ≠ .done

theorem QueueMarked.deliver {queue : Queue β Continuation} (hq : QueueMarked queue)
    (view : View β γ) {ending : Cursor γ} (hending : ending.WellMarked)
    {go : Queue β Continuation → Cursor γ} (hgo : ∀ rest, QueueMarked rest → (go rest).WellMarked) :
    (deliver view queue ending go).WellMarked := by
  cases queue with
  | nil => exact hending
  | cons e rest =>
    obtain ⟨he, hrest⟩ := List.forall_mem_cons.1 hq
    refine wellMarked_join fun x => ?_
    cases x with
    | ok u => exact ⟨he, hgo rest hrest⟩
    | error e => exact wellMarked_failWith rest e

theorem QueueMarked.flush {queue : Queue β Continuation} (hq : QueueMarked queue)
    (view : View β γ) {ending : Cursor γ} (hending : ending.WellMarked) (count : Nat) :
    (flush view ending count queue).WellMarked := by
  induction count generalizing queue with
  | zero => exact hending
  | succ count ih => exact hq.deliver view hending fun rest hrest => ih hrest

theorem WellMarked.pipelineFrom (h : c.WellMarked) (f : α → Job β) (depth : Nat)
    {queue : Queue β Continuation} (hq : QueueMarked queue) :
    (pipelineFrom .plain f depth queue c).WellMarked := by
  induction c generalizing queue with
  | row v t rest ih =>
    refine wellMarked_perform fun w => ?_
    have hq' : QueueMarked (queue ++ [((Flight.start depth (f v) w).2, t)]) :=
      List.forall_mem_append.2 ⟨hq, List.forall_mem_singleton.2 h.1⟩
    dsimp only [View.plain]
    split
    · exact ih () h.2 hq'
    · exact hq'.deliver .plain wellMarked_exhausted fun rest hrest => ih () h.2 hrest
  | stop r t =>
    refine hq.flush .plain ?_ _
    by_cases ht : t = .done
    · rw [stopFor, h.mp ht]
      exact wellMarked_exhausted
    · exact wellMarked_stopFor ht
  | fail e => exact wellMarked_failWith queue e
  | consult k ih => exact fun w => ih w (h w) hq
  | commit w c ih => exact ih h hq
  | pause wait rest ih => exact ih () h hq

theorem WellMarked.pipelined (h : c.WellMarked) (f : α → Job β) (depth : Nat) :
    (c.pipelined f depth).WellMarked :=
  h.pipelineFrom f _ nofun

/-! ### Nested iterations -/

theorem OuterValue.position_ne_done (o : OuterValue) (t : Continuation) : o.position t ≠ .done := by
  intro h
  cases h

theorem wellMarked_inner (o : OuterValue) {rest : Unit → Cursor α} (hrest : (rest ()).WellMarked)
    (c : Cursor α) : (inner o rest c).WellMarked := by
  induction c with
  | row v t more ih => exact ⟨o.position_ne_done t, ih ()⟩
  | stop r t =>
    rw [inner]
    split
    · rename_i hr
      exact wellMarked_stop hr (o.position_ne_done t)
    · exact hrest
  | fail => trivial
  | consult k ih => exact fun w => ih w
  | commit w c ih => exact ih
  | pause wait more ih => exact ih ()

theorem wellMarked_enter (queue : Queue (Cursor β) OuterValue) {ending : Cursor β}
    (hending : ending.WellMarked) {go : Queue (Cursor β) OuterValue → Cursor β}
    (hgo : ∀ rest, (go rest).WellMarked) : (enter queue ending go).WellMarked := by
  cases queue with
  | nil => exact hending
  | cons e rest =>
    refine wellMarked_join fun x => ?_
    cases x with
    | ok c => exact wellMarked_inner e.2 (hgo rest) c
    | error e => exact wellMarked_failWith rest e

theorem wellMarked_flushInner {ending : Cursor β} (hending : ending.WellMarked) (count : Nat)
    (queue : Queue (Cursor β) OuterValue) : (flushInner ending count queue).WellMarked := by
  induction count generalizing queue with
  | zero => exact hending
  | succ count ih => exact wellMarked_enter queue hending ih

namespace Nesting

variable (n : Nesting α β)

theorem wellMarked_ending (r : StopReason) (outer : Continuation) :
    (ending r outer : Cursor β).WellMarked := by
  rw [ending]
  split
  · rename_i hr
    exact wellMarked_stop hr (OuterValue.position_ne_done _ _)
  · exact wellMarked_exhausted

theorem wellMarked_rows (recorded : Recorded) (outer : Continuation)
    (queue : Queue (Cursor β) OuterValue) (c : Cursor α) :
    (n.rows recorded outer queue c).WellMarked := by
  induction c generalizing recorded outer queue with
  | row v t rest ih =>
    rw [rows]
    refine wellMarked_perform fun w => ?_
    dsimp only
    split
    · exact ih () _ _ _
    · exact wellMarked_enter _ wellMarked_exhausted fun rest => ih () _ _ _
  | stop r t => exact wellMarked_flushInner (wellMarked_ending r t) _ _
  | fail e => exact wellMarked_failWith queue e
  | consult k ih => exact fun w => ih w _ _ _
  | commit w c ih => exact ih _ _ _
  | pause wait rest ih => exact ih () _ _ _

theorem wellMarked_openAt {n : Nesting α β}
    {openOuter : Continuation → Except CursorError (Cursor α)} {c : Cursor β}
    (h : n.openAt openOuter t = .ok c) : c.WellMarked := by
  rw [openAt] at h
  cases hresume : resume t with
  | error e =>
    rw [hresume] at h
    cases h
  | ok resumed =>
    obtain ⟨outer, recorded⟩ := resumed
    rw [hresume] at h
    change (openOuter outer >>= _) = _ at h
    cases houter : openOuter outer with
    | error e =>
      rw [houter] at h
      cases h
    | ok source =>
      rw [houter] at h
      change (if outer.isDone then Except.ok exhausted else .ok _) = Except.ok c at h
      split at h <;> cases h
      · exact wellMarked_exhausted
      · exact wellMarked_rows _ _ _ _ _

end Nesting

/-! ### Merges -/

namespace Merge

variable (m : Merge α)

theorem position_ne_done (legs : Legs α) : m.position legs ≠ .done := by
  intro h
  cases h

theorem wellMarked_rows (lastRead : List Nat) (legs : Legs α) :
    (m.rows lastRead legs).WellMarked := by
  induction legs using (Legs.wellFoundedRelation (α := α)).wf.induction generalizing lastRead with
  | h legs ih =>
    rw [rows]
    refine wellMarked_consult fun w => ?_
    split
    · rename_i place places due
      have hdue := Legs.isDue_of_due_eq_cons due
      split
      · trivial
      · rename_i w' legs' reading
        have below := Legs.below_read hdue reading
        refine wellMarked_commit ?_ w'
        split
        · exact ih _ below _
        · exact ih _ below _
    · split
      · exact wellMarked_stopFor (m.position_ne_done legs)
      · split
        · rename_i taken
          exact ⟨m.position_ne_done _, ih _ (Legs.below_useIf taken) _⟩
        · exact wellMarked_exhausted
      · split
        · rename_i passed
          exact ih _ (Legs.below_useIf passed) _
        · exact wellMarked_exhausted

theorem wellMarked_openAt {m : Merge α} {openers : List (OpenLeg α)} {c : Cursor α}
    (h : m.openAt openers t = .ok c) : c.WellMarked := by
  rw [openAt] at h
  split at h
  · cases h
    exact wellMarked_exhausted
  · cases htokens : m.resume openers.length t with
    | error e =>
      rw [htokens] at h
      cases h
    | ok tokens =>
      rw [htokens] at h
      change ((openers.zip tokens).mapM _ >>= fun legs => Except.ok (m.rows [] legs)) =
        Except.ok c at h
      generalize (openers.zip tokens).mapM (m := Except CursorError) _ = opened at h
      cases opened with
      | error e => cases h
      | ok legs =>
        cases h
        exact wellMarked_rows ..

end Merge

end ResumableQuery.Cursor

/-! ### Searches -/

namespace ResumableQuery.Search

open Cursor

namespace HitScan

variable (s : HitScan) (reader : Reader)

theorem wellMarked_page {rest : Unit → Cursor IndexEntry} (hrest : (rest ()).WellMarked)
    (hits : List ScoreDoc) : (s.page reader rest hits).WellMarked := by
  induction hits with
  | nil => exact hrest
  | cons hit hits ih =>
    intro w
    dsimp only
    split
    · exact ⟨nofun, ih⟩
    · trivial

theorem wellMarked_pages (count : Nat) (after : Option ScoreDoc) :
    (s.pages reader count after).WellMarked := by
  induction count generalizing after with
  | zero => exact wellMarked_exhausted
  | succ count ih =>
    intro w
    dsimp only
    split
    · refine wellMarked_page s reader ?_ _
      split
      · exact wellMarked_exhausted
      · exact ih _
    · exact wellMarked_exhausted
    · trivial

theorem wellMarked_openAt {s : HitScan} {t : Continuation} {c : Cursor IndexEntry}
    (h : s.openAt t = .ok c) : c.WellMarked := by
  rw [openAt.eq_def] at h
  split at h
  · cases h
    exact wellMarked_exhausted
  · split at h <;> cases h
    intro w
    dsimp only
    split
    · exact wellMarked_pages ..
    · exact wellMarked_exhausted
    · trivial

end HitScan

theorem Completion.wellMarked_rows (s : Completion) : s.rows.WellMarked := by
  intro w
  dsimp only
  split
  · exact (wellMarked_ofExcept fun c h => Nesting.wellMarked_openAt h).skipThenLimit
      (limitOf_ne_zero s.limit) _
  · exact wellMarked_exhausted
  · trivial

theorem Spelling.wellMarked_rows {s : Spelling} (hs : s.limits.limit ≠ some 0) :
    s.rows.WellMarked := by
  intro w
  dsimp only
  split
  · exact (wellMarked_rowsFrom _ _).skipThenLimit hs _
  · exact wellMarked_exhausted
  · trivial

theorem Spelling.limit_of_new {index : Index} {word : String} {fields : List String}
    {groupingKey : Tuple} {p : ScanProperties} {s : Spelling}
    (h : Spelling.new index word fields groupingKey p = .ok s) : s.limits.limit ≠ some 0 := by
  rw [Spelling.new] at h
  split at h <;> cases h
  exact limitOf_ne_zero _

end ResumableQuery.Search
