import ResumableQuery.Proofs.World.Content

/-!
# What tasks find

A task that looks up a record does so in some turn, and what it found is remembered until it is
collected.  While stores and search indexes stay as they are and no call fails, it does not matter
in which turn (`lookUp_eq`), so what a task may be found to have found is settled when it is started
(`MayFind`).  `Steady` says of a later world that nothing else can have happened to tasks, and
lookups that run beside a cursor give in such worlds what they give in place (`gives_find`).
-/

namespace ResumableQuery

namespace World

theorem get_eq_get? {w : World} (hcalls : w.callsLeft = none) (name : StoreName) (key : Bytes) :
    (w.get name key).2 = .ok ((w.store name).get? key) := by
  rw [get, call, hcalls]

/-- In worlds of the same content in which no call fails, lookups find the same. -/
theorem lookUp_eq {w w' : World} (h : w.SameContent w') (hcalls : w.callsLeft = none)
    (l : Lookup) : (w'.lookUp l).2 = (w.lookUp l).2 := by
  have get (name : StoreName) (key : Bytes) : (w'.get name key).2 = (w.get name key).2 := by
    rw [get_eq_get? hcalls, get_eq_get? (h.calls hcalls), h.store]
  rw [lookUp, lookUp, h.directory]
  split
  · rfl
  · exact congrArg (fun value => Except.ok (_, value)) (get _ _)

/-- What a lookup finds where no call fails. -/
theorem lookUp_eq_ok_iff {w : World} (hcalls : w.callsLeft = none) {l : Lookup} {primaryKey : Tuple}
    {value : Except StoreError (Option Bytes)} :
    (w.lookUp l).2 = .ok (primaryKey, value) ↔
      l.reader.primaryKey w.directory l.doc = .ok primaryKey ∧
        value = .ok ((w.store l.store).get? (l.subspace ++ primaryKey.pack)) := by
  rw [lookUp]
  split
  · rename_i h
    rw [h]
    constructor
    · intro heq
      cases heq
    · rintro ⟨heq, -⟩
      cases heq
  · rename_i pk h
    rw [h]
    dsimp only
    rw [get_eq_get? hcalls]
    constructor
    · intro heq
      cases heq
      exact ⟨rfl, rfl⟩
    · rintro ⟨heq, rfl⟩
      cases heq
      rfl

/-! ### Tasks by number -/

/-- One of some tasks has a number and would find a result in a world. -/
def WouldFind (w : World) (tasks : List Task) (id : TaskId) (found : Found) : Prop :=
  ∃ t ∈ tasks, t.id = id ∧ ∃ l, t.lookup = some l ∧ (w.lookUp l).2 = found

/-- A task of a number has found a result or would find it. -/
def MayFind (w : World) (id : TaskId) (found : Found) : Prop :=
  (id, some found) ∈ w.ended ∨ w.WouldFind w.tasks id found

/-- Tasks have numbers that were given out. -/
structure Numbered (w : World) : Prop where
  tasks : ∀ t ∈ w.tasks, t.id < w.nextTask
  ended : ∀ e ∈ w.ended, e.1 < w.nextTask

/-- Before a task was started, there is none whose number could be given out again. -/
theorem numbered_of_nil {w : World} (tasks : w.tasks = []) (ended : w.ended = []) : w.Numbered where
  tasks := by
    rw [tasks]
    exact fun _ h => nomatch h
  ended := by
    rw [ended]
    exact fun _ h => nomatch h

theorem mayFind_of_found? {w : World} {id : TaskId} {found : Found} (h : w.found? id = some found) :
    w.MayFind id found := by
  rw [found?, Option.join_eq_some_iff] at h
  obtain ⟨front, back, heq, -⟩ := List.lookup_eq_some_iff.1 h
  exact .inl (by rw [heq]; exact List.mem_append_right _ List.mem_cons_self)

/-- The later world has the same content, and of the tasks that were started by the first world
none may be found to have found anything else. -/
structure Steady (w w' : World) : Prop where
  content : w.SameContent w'
  nextTask : w.nextTask ≤ w'.nextTask
  numbered : w.Numbered → w'.Numbered
  found : w.callsLeft = none → ∀ id < w.nextTask, ∀ found, w'.MayFind id found → w.MayFind id found

/-! ### Turns -/

section Turns

variable {w₀ w : World} {t : Task} {tasks waiting : List Task} {id : TaskId} {found : Found}

theorem WouldFind.content (h : w₀.SameContent w) (hcalls : w₀.callsLeft = none)
    (hfind : w.WouldFind tasks id found) : w₀.WouldFind tasks id found := by
  obtain ⟨t, ht, hid, l, hl, hfound⟩ := hfind
  exact ⟨t, ht, hid, l, hl, (lookUp_eq h hcalls l).symm.trans hfound⟩

theorem WouldFind.mono {tasks' : List Task} (h : w.WouldFind tasks id found)
    (hsub : ∀ t ∈ tasks, t.lookup ≠ none → ∃ t' ∈ tasks', t'.id = t.id ∧ t'.lookup = t.lookup) :
    w.WouldFind tasks' id found := by
  obtain ⟨t, ht, hid, l, hl, hfound⟩ := h
  obtain ⟨t', ht', hid', hl'⟩ := hsub t ht (by rw [hl]; exact Option.some_ne_none l)
  exact ⟨t', ht', hid'.trans hid, l, hl'.trans hl, hfound⟩

theorem mem_ended_remember {e : TaskId × Option Found} {x : Option Found}
    (h : e ∈ (w.remember t x).ended) : e ∈ w.ended ∨ e = (t.id, x) := by
  rw [remember] at h
  split at h
  · exact .inl h
  · exact (List.mem_append.1 h).imp_right List.mem_singleton.1

theorem tasks_remember (w : World) (t : Task) (x : Option Found) :
    (w.remember t x).tasks = w.tasks ∧ (w.remember t x).nextTask = w.nextTask := by
  rw [remember]
  split <;> exact ⟨rfl, rfl⟩

theorem tasks_lookUp (w : World) (l : Lookup) :
    (w.lookUp l).1.tasks = w.tasks ∧ (w.lookUp l).1.nextTask = w.nextTask ∧
      (w.lookUp l).1.ended = w.ended := by
  rw [lookUp]
  split
  · exact ⟨rfl, rfl, rfl⟩
  · rw [World.get]
    cases hcall : w.call with
    | error e => exact ⟨rfl, rfl, rfl⟩
    | ok w' =>
      rw [call] at hcall
      split at hcall <;> cases hcall <;> exact ⟨rfl, rfl, rfl⟩

theorem tasks_finish (w : World) (t : Task) :
    (w.finish t).tasks = w.tasks ∧ (w.finish t).nextTask = w.nextTask := by
  rw [finish]
  split
  · exact tasks_remember w t none
  · rename_i l hl
    obtain ⟨htasks, hnext⟩ := tasks_remember (w.lookUp l).1 t (some (w.lookUp l).2)
    obtain ⟨htasks', hnext', -⟩ := tasks_lookUp w l
    exact ⟨htasks.trans htasks', hnext.trans hnext'⟩

/-- A task that ends has found what it would have found. -/
theorem mem_ended_finish {e : TaskId × Option Found} (h : e ∈ (w.finish t).ended) :
    e ∈ w.ended ∨ e.1 = t.id ∧ ∀ found, e.2 = some found → w.WouldFind [t] t.id found := by
  rw [finish] at h
  split at h
  · refine (mem_ended_remember h).imp_right fun he => ?_
    rw [he]
    refine ⟨rfl, fun found hfound => ?_⟩
    cases hfound
  · rename_i l hl
    rcases mem_ended_remember h with h | he
    · exact .inl ((tasks_lookUp w l).2.2 ▸ h)
    · rw [he]
      refine .inr ⟨rfl, fun found hfound => ?_⟩
      cases hfound
      exact ⟨t, List.mem_singleton_self t, rfl, l, hl, rfl⟩

/-- Serving tasks leaves tasks that are among those and that wait as before, and what has ended by
then was remembered before or found by one of those. -/
theorem serve_spec (tasks waiting : List Task) (h₀ : w₀.SameContent w) :
    (serve tasks waiting w).1.tasks = w.tasks ∧
      (serve tasks waiting w).1.nextTask = w.nextTask ∧
      (∀ t ∈ (serve tasks waiting w).2, ∃ t' ∈ waiting ++ tasks, t'.id = t.id ∧
        t'.lookup = t.lookup) ∧
      ∀ e ∈ (serve tasks waiting w).1.ended, e ∈ w.ended ∨ (∃ t ∈ tasks, t.id = e.1) ∧
        (w₀.callsLeft = none → ∀ found, e.2 = some found → w₀.WouldFind tasks e.1 found) := by
  induction tasks generalizing waiting w with
  | nil =>
    refine ⟨rfl, rfl, fun t ht => ⟨t, List.mem_append_left _ ht, rfl, rfl⟩, fun e he => .inl he⟩
  | cons t tasks ih =>
    have later {id found} (h : w₀.WouldFind tasks id found) : w₀.WouldFind (t :: tasks) id found :=
      h.mono fun u hu _ => ⟨u, List.mem_cons_of_mem t hu, rfl, rfl⟩
    rw [serve]
    split
    · obtain ⟨htasks, hnext, hwaiting, hended⟩ := ih waiting
        (h₀.trans (sameContent_finish w t))
      obtain ⟨ftasks, fnext⟩ := tasks_finish w t
      refine ⟨htasks.trans ftasks, hnext.trans fnext, fun t' ht' => ?_, fun e he => ?_⟩
      · obtain ⟨u, hu, hid, hl⟩ := hwaiting t' ht'
        refine ⟨u, ?_, hid, hl⟩
        exact List.mem_append.2 ((List.mem_append.1 hu).imp_right (List.mem_cons_of_mem t))
      · rcases hended e he with he | ⟨⟨u, hu, hid⟩, hfind⟩
        · rcases mem_ended_finish he with he | ⟨hid, hfind⟩
          · exact .inl he
          · refine .inr ⟨⟨t, List.mem_cons_self, hid.symm⟩, fun hcalls found hfound => ?_⟩
            have own := (hfind found hfound).content h₀ hcalls
            rw [hid]
            refine own.mono fun u hu _ => ⟨u, ?_, rfl, rfl⟩
            rw [List.mem_singleton.1 hu]
            exact List.mem_cons_self
        · exact .inr ⟨⟨u, List.mem_cons_of_mem t hu, hid⟩,
            fun hcalls found hfound => later (hfind hcalls found hfound)⟩
    · rename_i n hn
      obtain ⟨htasks, hnext, hwaiting, hended⟩ := ih ({ t with waits := n } :: waiting) h₀
      refine ⟨htasks, hnext, fun t' ht' => ?_, fun e he => (hended e he).imp_right fun h => ?_⟩
      · obtain ⟨u, hu, hid, hl⟩ := hwaiting t' ht'
        rcases List.mem_append.1 hu with hu | hu
        · rcases List.mem_cons.1 hu with rfl | hu
          · exact ⟨t, List.mem_append_right _ List.mem_cons_self, hid, hl⟩
          · exact ⟨u, List.mem_append_left _ hu, hid, hl⟩
        · exact ⟨u, List.mem_append_right _ (List.mem_cons_of_mem t hu), hid, hl⟩
      · obtain ⟨⟨u, hu, hid⟩, hfind⟩ := h
        exact ⟨⟨u, List.mem_cons_of_mem t hu, hid⟩,
          fun hcalls found hfound => later (hfind hcalls found hfound)⟩

end Turns

/-! ### Steady worlds -/

theorem Steady.refl (w : World) : w.Steady w := ⟨.refl w, Nat.le_refl _, id, fun _ _ _ _ h => h⟩

theorem Steady.trans {w₁ w₂ w₃ : World} (h : w₁.Steady w₂) (k : w₂.Steady w₃) : w₁.Steady w₃ where
  content := h.content.trans k.content
  nextTask := Nat.le_trans h.nextTask k.nextTask
  numbered hn := k.numbered (h.numbered hn)
  found hcalls id hid found hfound :=
    h.found hcalls id hid found
      (k.found (h.content.calls hcalls) id (Nat.lt_of_lt_of_le hid h.nextTask) found hfound)

theorem steady_lookUp (w : World) (l : Lookup) : w.Steady (w.lookUp l).1 := by
  obtain ⟨htasks, hnext, hended⟩ := tasks_lookUp w l
  have content := sameContent_lookUp w l
  refine ⟨content, Nat.le_of_eq hnext.symm, fun hn => ?_, fun hcalls id _ found h => ?_⟩
  · refine ⟨fun t ht => ?_, fun e he => ?_⟩
    · rw [htasks] at ht
      exact hnext ▸ hn.tasks t ht
    · rw [hended] at he
      exact hnext ▸ hn.ended e he
  · refine h.imp (fun h => hended ▸ h) fun h => ?_
    rw [htasks] at h
    exact h.content content hcalls

theorem steady_start (w : World) (waits : Nat) (lookup : Option Lookup) :
    w.Steady (w.start waits lookup).1 := by
  have content : w.SameContent (w.start waits lookup).1 := ⟨rfl, rfl, id⟩
  refine ⟨content, Nat.le_succ _, fun hn => ⟨fun t ht => ?_, fun e he => ?_⟩,
    fun hcalls id hid found h => h.imp_right fun h => ?_⟩
  · rcases List.mem_append.1 ht with ht | ht
    · exact Nat.lt_succ_of_lt (hn.tasks t ht)
    · rw [List.mem_singleton.1 ht]
      exact Nat.lt_succ_self w.nextTask
  · exact Nat.lt_succ_of_lt (hn.ended e he)
  · obtain ⟨t, ht, htid, l, hl, hfound⟩ := h.content content hcalls
    rcases List.mem_append.1 ht with ht | ht
    · exact ⟨t, ht, htid, l, hl, hfound⟩
    · rw [List.mem_singleton.1 ht] at htid
      exact absurd htid.symm (Nat.ne_of_lt hid)

theorem steady_drop (w : World) (ids : List TaskId) : w.Steady (w.drop ids) := by
  have content : w.SameContent (w.drop ids) := ⟨rfl, rfl, id⟩
  refine ⟨content, Nat.le_refl _, fun hn => ⟨fun t ht => ?_, fun e he => ?_⟩,
    fun hcalls id _ found h => h.imp (fun h => ?_) fun h => ?_⟩
  · obtain ⟨u, hu, rfl⟩ := List.mem_map.1 ht
    have := hn.tasks u hu
    split
    · exact this
    · exact this
  · exact hn.ended e (List.mem_filter.1 he).1
  · exact (List.mem_filter.1 h).1
  · refine (h.content content hcalls).mono fun t ht hlookup => ?_
    obtain ⟨u, hu, rfl⟩ := List.mem_map.1 ht
    split at hlookup
    · exact absurd rfl hlookup
    · rename_i hkept
      rw [if_neg hkept]
      exact ⟨u, hu, rfl, rfl⟩

theorem steady_afterTurn (w : World) : w.Steady w.afterTurn := by
  have content := sameContent_afterTurn w
  have taken : w.SameContent { w with tasks := w.tasks.drop turnSize } := ⟨rfl, rfl, id⟩
  obtain ⟨htasks, hnext, hwaiting, hended⟩ := serve_spec (w.tasks.take turnSize) [] taken
  rw [List.nil_append] at hwaiting
  have subset : ∀ t ∈ w.afterTurn.tasks, ∃ t' ∈ w.tasks, t'.id = t.id ∧ t'.lookup = t.lookup := by
    intro t ht
    rcases List.mem_append.1 ht with ht | ht
    · rw [htasks] at ht
      exact ⟨t, List.mem_of_mem_drop ht, rfl, rfl⟩
    · obtain ⟨u, hu, hid, hl⟩ := hwaiting t ht
      exact ⟨u, List.mem_of_mem_take hu, hid, hl⟩
  have next : w.afterTurn.nextTask = w.nextTask := hnext
  refine ⟨content, Nat.le_of_eq next.symm, fun hn => ⟨fun t ht => ?_, fun e he => ?_⟩,
    fun hcalls id _ found h => ?_⟩
  · obtain ⟨u, hu, hid, -⟩ := subset t ht
    rw [← hid, next]
    exact hn.tasks u hu
  · rw [next]
    rcases hended e he with he | ⟨⟨u, hu, hid⟩, -⟩
    · exact hn.ended e he
    · rw [← hid]
      exact hn.tasks u (List.mem_of_mem_take hu)
  · rcases h with h | h
    · rcases hended _ h with h | ⟨-, hfind⟩
      · exact .inl h
      · exact .inr ((hfind hcalls found rfl).mono fun u hu _ =>
          ⟨u, List.mem_of_mem_take hu, rfl, rfl⟩)
    · exact .inr ((h.content content hcalls).mono fun t ht _ => subset t ht)

theorem steady_awaitWithin (turns : Nat) (wait : Wait) (w : World) :
    w.Steady (awaitWithin turns wait w) := by
  induction turns generalizing w with
  | zero => exact .refl w
  | succ turns ih =>
    rw [awaitWithin]
    split
    · exact steady_afterTurn w
    · exact (steady_afterTurn w).trans (ih _)

theorem passage_steady : Passage Steady where
  refl := Steady.refl
  trans := Steady.trans
  start := steady_start
  drop := steady_drop
  await w wait := steady_awaitWithin _ wait w

end World

namespace Cursor

/-- Where no call fails, a lookup that runs in place or as a task finds what it would find now. -/
theorem gives_find {w : World} (hcalls : w.callsLeft = none) (hn : w.Numbered) (l : Lookup)
    (result : Found → Except CursorError β) :
    (Job.find l result).Gives World.Steady w (· = result (w.lookUp l).2) := by
  intro w' hw
  have calls' := hw.content.calls hcalls
  have same : (w'.lookUp l).2 = (w.lookUp l).2 := World.lookUp_eq hw.content hcalls l
  have started : w'.SameContent (w'.start 0 (some l)).1 := ⟨rfl, rfl, id⟩
  refine ⟨World.steady_lookUp w' l, by rw [same], fun w'' hw' found hfound => ?_⟩
  have hmay := hw'.found calls' w'.nextTask (Nat.lt_succ_self _) found
    (World.mayFind_of_found? hfound)
  have numbered := hw.numbered hn
  -- The number was not given out before, so it is the new task that has it.
  rcases hmay with h | ⟨t, ht, hid, l', hl', hfound⟩
  · exact absurd (numbered.ended _ h) (Nat.lt_irrefl _)
  · rcases List.mem_append.1 ht with ht | ht
    · exact absurd (hid ▸ numbered.tasks t ht) (Nat.lt_irrefl _)
    · rw [List.mem_singleton.1 ht] at hl'
      cases hl'
      rw [← hfound, ← same]
      exact congrArg result (World.lookUp_eq started calls' l)

end Cursor

end ResumableQuery
