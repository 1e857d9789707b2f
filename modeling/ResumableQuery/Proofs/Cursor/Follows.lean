import ResumableQuery.Cursor.Adapter
import ResumableQuery.Proofs.Cursor.Reading

/-!
# Cursors that follow a reading

A cursor follows a reading from a continuation if it hands out what is ahead of that continuation,
each row with a continuation that stands for the rest, and if wherever it stops or fails the reading
agrees.  A cursor that is under limits may stop anywhere, but only at a continuation of the reading;
and as long as it is fresh, only at one that is further along than the one it was opened at.  That is
what every cursor over an unchanging store is shown to do, from the scans of stored pairs up to whole
plans; what a caller sees of such a cursor is read off in the end (`run_limitFrom`).
-/

namespace ResumableQuery.Cursor

open Prospect

/-- In all worlds of a kind, the cursor hands out what is ahead of a continuation.  It is fresh if no
row was taken from it since it was opened. -/
inductive Follows (W : World → Prop) (D : Reading α) (limited : Bool) :
    Cursor α → (fresh : Bool) → Continuation → Prop
  | row {v t rest fresh c} (issued : D.issued t) (passes : D.Passes c t)
      (yields : (D.ahead c).Yields limited (.row v (D.ahead t)))
      (rest_follows : Follows W D limited (rest ()) false t) :
      Follows W D limited (.row v t rest) fresh c
  | limit {r t fresh c} (under : limited = true) (isLimit : r.isLimit = true)
      (issued : D.issued t) (reaches : D.Reaches c t) (passes : fresh = true → D.Passes c t)
      (yields : (D.ahead c).Yields limited (D.ahead t)) :
      Follows W D limited (.stop r t) fresh c
  | dry {fresh c} (yields : (D.ahead c).Yields limited .exhausted) :
      Follows W D limited exhausted fresh c
  | fail {e fresh c} (failure : D.ahead c = .failure) : Follows W D limited (.fail e) fresh c
  | consult {k fresh c} (each : ∀ w, W w → Follows W D limited (k w) fresh c) :
      Follows W D limited (.consult k) fresh c
  | commit {w k fresh c} (world : W w) (then_follows : Follows W D limited k fresh c) :
      Follows W D limited (.commit w k) fresh c

namespace Follows

variable {W : World → Prop} {D : Reading α} {limited fresh : Bool} {source : Cursor α}
  {c c' : Continuation}

/-- A cursor that follows a reading from further along follows it from before, if nothing lies in
between. -/
theorem rebase (h : Follows W D limited source false c') (hp : D.Passes c c')
    (hy : (D.ahead c).Yields limited (D.ahead c')) : Follows W D limited source fresh c := by
  generalize hf : false = f at h
  induction h with
  | row issued passes yields rest =>
    exact .row issued (hp.trans_recedes passes.1) (hy.trans yields) rest
  | limit under isLimit issued reaches _ yields =>
    exact .limit under isLimit issued (hp.1.trans reaches) (fun _ => hp.trans_recedes reaches)
      (hy.trans yields)
  | dry yields => exact .dry (hy.trans yields)
  | fail failure =>
    rw [failure] at hy
    exact .fail hy.eq_failure
  | consult _ ih => exact .consult fun w hw => ih w hw hp hy hf
  | commit world _ ih => exact .commit world (ih hp hy hf)

/-- Doing something to the world and going on with the result. -/
theorem perform {act : World → World × β} {go : β → Cursor α}
    (h : ∀ w, W w → W (act w).1 ∧ Follows W D limited (go (act w).2) fresh c) :
    Follows W D limited (Cursor.perform act go) fresh c :=
  .consult fun w hw => .commit (h w hw).1 (h w hw).2

theorem tryMap (f : α → Except CursorError β) (h : Follows W D limited source fresh c) :
    Follows W (D.tryMap f) limited (source.tryMap f) fresh c := by
  induction h with
  | @row v _ _ _ _ issued passes yields _ ih =>
    rw [Cursor.tryMap]
    cases hf : f v with
    | ok u =>
      have hy := yields.tryMap f
      rw [Prospect.tryMap, hf] at hy
      exact .row issued passes hy ih
    | error e => exact .fail (yields.tryMap_eq_failure hf)
  | limit under isLimit issued reaches passes yields =>
    exact .limit under isLimit issued reaches passes (yields.tryMap f)
  | dry yields => exact .dry (yields.tryMap f)
  | @fail _ _ c failure =>
    refine .fail ?_
    show (D.ahead c).tryMap f = .failure
    rw [failure, Prospect.tryMap]
  | consult _ ih => exact .consult ih
  | commit world _ ih => exact .commit world ih

theorem filter (p : α → Bool) (h : Follows W D limited source fresh c) :
    Follows W (D.filter p) limited (source.filter p) fresh c := by
  induction h with
  | @row v t _ _ c issued passes yields _ ih =>
    have hy := yields.filter p
    rw [Prospect.filter] at hy
    rw [Cursor.filter]
    split
    · rw [if_pos (by assumption)] at hy
      exact .row issued passes hy ih
    · rw [if_neg (by assumption)] at hy
      exact ih.rebase passes hy
  | limit under isLimit issued reaches passes yields =>
    exact .limit under isLimit issued reaches passes (yields.filter p)
  | dry yields => exact .dry (yields.filter p)
  | @fail _ _ c failure =>
    refine .fail ?_
    show (D.ahead c).filter p = .failure
    rw [failure, Prospect.filter]
  | consult _ ih => exact .consult ih
  | commit world _ ih => exact .commit world ih

end Follows

/-! ### Limits -/

/-- The request imposes no limit, or the cursor counts as limited. -/
def Bounds (limited : Bool) (p : ScanProperties) : Prop :=
  limited = false → p.limit = none ∧ p.timeLimit = none

namespace Bounds

variable {limited : Bool} {p : ScanProperties}

theorem of_reachedLimit {n : Nat} {r : StopReason} (h : Bounds limited p)
    (hr : reachedLimit p n = some r) : limited = true := by
  cases limited with
  | true => rfl
  | false =>
    obtain ⟨hl, ht⟩ := h rfl
    simp [reachedLimit, hl, ht] at hr

theorem clearSkipAndLimit (h : Bounds limited p) : Bounds limited p.clearSkipAndLimit :=
  fun hl => ⟨rfl, (h hl).2⟩

/-- A request without a limit on time comes without one to every cursor that is read from. -/
theorem toFirst (h : Bounds limited p) : Bounds limited p.toFirst :=
  fun hl => ⟨(h hl).1, Option.map_eq_none_iff.2 (h hl).2⟩

theorem toOthers (h : Bounds limited p) : Bounds limited p.toOthers :=
  fun hl => ⟨(h hl).1, Option.map_eq_none_iff.2 (h hl).2⟩

end Bounds

theorem isLimit_of_reachedLimit {p : ScanProperties} {n : Nat} {r : StopReason}
    (hr : reachedLimit p n = some r) : r.isLimit = true := by
  unfold reachedLimit at hr
  split at hr
  · cases hr
    rfl
  · split at hr
    · cases hr
      rfl
    · cases hr

theorem reachedLimit_zero {p : ScanProperties} (h : p.limit ≠ some 0) :
    reachedLimit p 0 = none := by
  have hl : p.limit.any (· ≤ 0) = false := by
    cases hp : p.limit with
    | none => rfl
    | some n =>
      rw [hp] at h
      have : n ≠ 0 := fun hn => h (hn ▸ rfl)
      exact decide_eq_false (by omega)
  rw [reachedLimit, hl]
  rfl

/-- A request that is built from one without limits does not ask for zero rows. -/
theorem limitOf_ne_zero (n : Nat) : ScanProperties.limitOf n ≠ some 0 := by
  rw [ScanProperties.limitOf]
  split
  · intro h
    cases h
  · rename_i hn
    exact fun h => hn (Option.some.inj h)

section Limits

variable {W : World → Prop} {D : Reading α} {limited fresh : Bool} {source : Cursor α}
  {c : Continuation} {p : ScanProperties}

theorem Follows.limitFrom (h : Follows W D limited source fresh c) (hb : Bounds limited p)
    (n : Nat) : Follows W D limited (limitFrom p 0 n source) fresh c := by
  induction h generalizing n with
  | @row v t _ _ c issued passes yields rest ih =>
    rw [Cursor.limitFrom, if_pos rfl]
    refine .row issued passes yields ?_
    cases hr : reachedLimit p (n + 1) with
    | none => exact ih (n + 1)
    | some r =>
      have hl := isLimit_of_reachedLimit hr
      show Follows W D limited (if r.isLimit then stop r t else exhausted) false t
      rw [if_pos hl]
      refine .limit (hb.of_reachedLimit hr) hl issued (.refl _) ?_ (.refl _)
      intro hfresh
      cases hfresh
  | limit under isLimit issued reaches passes yields =>
    exact .limit under isLimit issued reaches passes yields
  | dry yields => exact .dry yields
  | fail failure => exact .fail failure
  | consult _ ih => exact .consult fun w hw => ih w hw n
  | commit world _ ih => exact .commit world (ih n)

theorem Follows.skipThenLimit (h : Follows W D limited source fresh c) (hb : Bounds limited p)
    (hs : p.skip = 0) (hl : p.limit ≠ some 0) :
    Follows W D limited (skipThenLimit p c source) fresh c := by
  rw [Cursor.skipThenLimit, reachedLimit_zero hl, hs, ite_self]
  exact h.limitFrom hb 0

/-! ### What a caller sees -/

theorem collect_new {source : Cursor α} {w w' : World} {rows : List (α × Continuation)}
    {e : Ending} (h : source.run w = (w', rows, e)) :
    (Handle.new source).collect w =
      match e with
      | .stopped r t => (w'.dropAll, .ok (rows.map (·.1), r, t))
      | .failed e => (w'.dropAll, .error e) := by
  simp only [Handle.collect, Handle.new, Tail.ending?, h]
  cases e <;> rfl

/-- What has come of a cursor that was opened at a continuation and has ended: the rows that it
handed out or left out, and where it ended. -/
def Reaped (D : Reading α) (limited fresh : Bool) (c : Continuation) (rows : List α) :
    Ending → Prop
  | .stopped r t =>
    D.issued t ∧ (D.ahead c).Leads limited rows (D.ahead t) ∧
      (r.isLimit = false → t = .done) ∧
      (r.isLimit = true → limited = true ∧ D.Reaches c t ∧ (fresh = true → D.Passes c t))
  | .failed _ => (D.ahead c).Leads limited rows .failure

theorem Reaped.row {v : α} {t : Continuation} {rows : List α} {e : Ending}
    (hp : D.Passes c t) (hy : (D.ahead c).Yields limited (.row v (D.ahead t)))
    (h : Reaped D limited false t rows e) : Reaped D limited fresh c (v :: rows) e := by
  cases e with
  | stopped r t' =>
    obtain ⟨issued, leads, done, reach⟩ := h
    refine ⟨issued, ⟨_, hy, leads⟩, done, fun hr => ?_⟩
    obtain ⟨under, hr, -⟩ := reach hr
    exact ⟨under, hp.1.trans hr, fun _ => hp.trans_recedes hr⟩
  | failed => exact ⟨_, hy, h⟩

/-- The rows of a cursor within limits, after some rows that are left out: as many as there are to
be left out, unless the cursor below ends before. -/
theorem run_limitFrom (h : Follows W D limited source fresh c) (hb : Bounds limited p)
    (skip n : Nat) {w : World} (hw : W w) :
    W ((limitFrom p skip n source).run w).1 ∧
      (((limitFrom p skip n source).run w).2.1 ≠ [] → skip < (source.run w).2.1.length) ∧
      ∃ left : List α, left.length = min skip (source.run w).2.1.length ∧
        Reaped D limited fresh c
          (left ++ ((limitFrom p skip n source).run w).2.1.map (·.1))
          ((limitFrom p skip n source).run w).2.2 := by
  induction h generalizing skip n w with
  | @row v t rest fresh c issued passes yields _ ih =>
    rw [Cursor.limitFrom]
    by_cases hskip : skip = 0
    · rw [if_pos hskip, hskip]
      cases hr : reachedLimit p (n + 1) with
      | none =>
        obtain ⟨hw', -, left, hlen, hreap⟩ := ih 0 (n + 1) hw
        have hnil : left = [] := List.length_eq_zero_iff.1 (by omega)
        rw [hnil] at hreap
        simp only [run]
        exact ⟨hw', fun _ => Nat.succ_pos _, [], by simp, hreap.row passes yields⟩
      | some r =>
        have hl := isLimit_of_reachedLimit hr
        simp only [run, stopFor, hl, if_true]
        refine ⟨hw, fun _ => Nat.succ_pos _, [], by simp, issued, ⟨_, yields, .refl _⟩, fun h => ?_,
          fun _ => ⟨hb.of_reachedLimit hr, passes.1, fun _ => passes⟩⟩
        rw [hl] at h
        cases h
    · rw [if_neg hskip]
      obtain ⟨hw', hout, left, hlen, hreap⟩ := ih (skip - 1) n hw
      have hrun : ((row v t rest).run w).2.1.length = ((rest ()).run w).2.1.length + 1 := rfl
      refine ⟨hw', fun hne => ?_, v :: left, ?_, hreap.row passes yields⟩
      · have := hout hne
        omega
      · rw [List.length_cons, hlen, hrun]
        omega
  | limit under isLimit issued reaches passes yields =>
    refine ⟨hw, fun h => absurd rfl h, [], by simp [run], issued, yields, fun h => ?_,
      fun _ => ⟨under, reaches, passes⟩⟩
    rw [isLimit] at h
    cases h
  | @dry _ c yields =>
    have hy : (D.ahead c).Yields limited (D.ahead .done) := by rwa [D.ahead_done]
    exact ⟨hw, fun h => absurd rfl h, [], by simp [run, exhausted], D.issued_done, hy,
      fun _ => rfl, nofun⟩
  | fail failure => exact ⟨hw, fun h => absurd rfl h, [], by simp [run], .inl failure⟩
  | consult _ ih => exact ih _ hw skip n hw
  | commit world _ ih => exact ih skip n world

/-- A cursor that nothing limits hands out all rows that are ahead. -/
theorem collect_of_ahead (h : Follows W D false source fresh c) {l : List α}
    (hl : D.ahead c = .ofList l) {w : World} (hw : W w) :
    ((Handle.new source).collect w).2 = .ok (l, .sourceExhausted, .done) := by
  have hrun : (source.run w).2.1.map Prod.fst = l ∧
      (source.run w).2.2 = .stopped .sourceExhausted .done := by
    induction h generalizing l w with
    | row _ _ yields _ ih =>
      rcases yields with hy | ⟨under, -⟩
      · rw [hl] at hy
        cases l with
        | nil => cases hy
        | cons a l =>
          obtain ⟨rfl, hrest⟩ := Prospect.row.inj hy
          obtain ⟨hrows, hend⟩ := ih hrest.symm hw
          exact ⟨congrArg (a :: ·) hrows, hend⟩
      · cases under
    | limit under => cases under
    | dry yields =>
      rcases yields with hy | ⟨under, -⟩
      · rw [hl] at hy
        cases l with
        | nil => exact ⟨rfl, rfl⟩
        | cons => cases hy
      · cases under
    | fail failure => exact absurd (hl.symm.trans failure) (ofList_ne_failure l)
    | consult _ ih => exact ih _ hw hl hw
    | commit world _ ih => exact ih hl world
  rcases hsource : source.run w with ⟨w', rows, e⟩
  rw [hsource] at hrun
  obtain ⟨rfl, rfl⟩ := hrun
  rw [collect_new hsource]

end Limits

end ResumableQuery.Cursor
