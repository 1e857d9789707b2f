import ResumableQuery.Proofs.Cursor.TimeLimit
import ResumableQuery.Proofs.Plan.Pages

/-!
# Pages that end for the time limit

The time limit of a request reaches every part of a plan, and each part stops for it by a clock of
its own, after its first row at the earliest.  A page of a plan that only unites scans ends for the
time limit with a row, unless it is to skip some.  A filter or an intersection may leave out the
rows that a part of it got to, and then the page ends without one (`page_emptied`).  What is left
for every plan, wherever its parts are stopped, is that a stored pair was read
(`page_of_timeLimit`).
-/

namespace ResumableQuery.Plan

open Cursor

mutual

/-- Whether a plan leaves out no row of its scans: it unites them, and there is neither a filter nor
an intersection. -/
def OnlyUnites : Plan → Prop
  | scan _ _ => True
  | filter _ _ _ => False
  | merge operation legs _ _ => operation = .union ∧ LegsOnlyUnite legs
  | dynamic _ leg _ _ => leg.OnlyUnites

/-- Whether several legs leave out no row of their scans. -/
def LegsOnlyUnite : List (Alias × Plan) → Prop
  | [] => True
  | (_, leg) :: rest => leg.OnlyUnites ∧ LegsOnlyUnite rest

end

/-- Whether a plan is a single scan. -/
def IsScan : Plan → Prop
  | scan _ _ => True
  | filter _ _ _ => False
  | merge _ _ _ _ => False
  | dynamic _ leg _ _ => leg.IsScan

section Openings

variable {x : Execution} {before after : World → Prop} {hands : Prop}

theorem opensTo_scan_timely (meters : World.Meters x.budget before after hands)
    (range : TupleRange) {c : Continuation} {p : ScanProperties}
    (hskip : (c.isStart = true → p.skip = 0) ∨ ¬ hands) :
    OpensTo (fun rows => rows.Timely before after hands ∧ rows.Keeps after)
      (x.records.scan x.world range c p x.budget) := by
  rw [RecordStore.scan]
  have pairs := (x.records.keyScan range p.reverse x.budget).opensTo_openAt_timely meters x.world c
  refine pairs.bind fun pairs hpairs => ?_
  obtain ⟨timely, keeps⟩ := hpairs
  exact ⟨(timely.tryMap RecordStore.decodePair).skipThenLimit hskip,
    (Keeps.tryMap keeps RecordStore.decodePair).skipThenLimit p c⟩

mutual

theorem opensTo_execute_timely (meters : World.Meters x.budget before after hands) (plan : Plan)
    (hplan : plan.OnlyUnites ∨ ¬ hands) {c : Continuation} {p : ScanProperties}
    (hskip : (c.isStart = true → p.skip = 0) ∨ ¬ hands) :
    OpensTo (fun rows => rows.Timely before after hands ∧ rows.Keeps after)
      (plan.execute x c p) := by
  match plan with
  | scan range reverse =>
    rw [execute]
    exact opensTo_scan_timely meters range hskip
  | filter child key equals =>
    have hhands : ¬ hands := hplan.resolve_left id
    rw [execute]
    refine (opensTo_execute_timely meters child (.inr hhands) (.inr hhands)).bind
      fun rows hrows => ?_
    obtain ⟨timely, keeps⟩ := hrows
    exact ⟨(timely.filter hhands _).skipThenLimit hskip,
      (Keeps.filter keeps _).skipThenLimit p c⟩
  | merge operation legs key reverse =>
    rw [execute]
    have openers := opensTo_openers_timely meters legs (hplan.imp_left And.right)
      (p := p.clearSkipAndLimit) rfl
    have rows := Merge.opensTo_openAt_timely (m := merger x operation key reverse
      (merge operation legs key reverse).hash) (hplan.imp_left And.left) openers c
    refine rows.bind fun rows hrows => ?_
    obtain ⟨timely, keeps⟩ := hrows
    exact ⟨timely.skipThenLimit hskip, Keeps.skipThenLimit keeps p c⟩
  | dynamic name leg key reverse =>
    rw [execute]
    exact opensTo_execute_timely meters leg hplan hskip

theorem opensTo_openers_timely (meters : World.Meters x.budget before after hands)
    (legs : List (Alias × Plan)) (hlegs : LegsOnlyUnite legs ∨ ¬ hands) {p : ScanProperties}
    (hskip : p.skip = 0) :
    ∀ opener ∈ openers x p legs, ∀ c,
      OpensTo (fun rows => rows.Timely before after hands ∧ rows.Keeps after) (opener c) := by
  match legs with
  | [] =>
    intro opener h
    cases h
  | (name, leg) :: rest =>
    rw [openers]
    refine List.forall_mem_cons.2 ⟨fun c => ?_, ?_⟩
    · exact opensTo_execute_timely meters leg (hlegs.imp_left And.left) (.inl fun _ => hskip)
    · exact opensTo_openers_timely meters rest (hlegs.imp_left And.right) hskip

end

end Openings

/-! ### Pages -/

theorem newBudget_before (w : World) (limit : Option Nat) :
    w.budgets.length < (w.newBudget limit).1.budgets.length ∧
      ((w.newBudget limit).1.budget w.budgets.length).scanned = 0 := by
  rw [World.budget_newBudget]
  exact ⟨by simp [World.newBudget], rfl⟩

variable {plan : Plan} {records : RecordStore} {bindings : Bindings} {p : ScanProperties}
  {c t : Continuation} {w w' : World} {rows : List Record} {r : StopReason}

/-- A page is what comes of a cursor that is opened on a new budget. -/
theorem exists_of_page (h : plan.page records bindings p c w = (w', .ok (rows, r, t))) :
    ∃ cursor handed, plan.execute ⟨records, bindings, w.budgets.length, (w.newBudget p.scanLimit).1⟩
        c p = .ok cursor ∧
      (cursor.run (w.newBudget p.scanLimit).1).2 = (handed, .stopped r t) ∧
      handed.map Prod.fst = rows ∧
      w'.budgets = (cursor.run (w.newBudget p.scanLimit).1).1.budgets := by
  cases hcursor : plan.execute
      ⟨records, bindings, (w.newBudget p.scanLimit).2, (w.newBudget p.scanLimit).1⟩ c p with
  | error e =>
    simp only [page, hcursor] at h
    cases h
  | ok cursor =>
    rcases hrun : cursor.run (w.newBudget p.scanLimit).1 with ⟨w'', handed, e⟩
    simp only [page, hcursor, collect_new hrun] at h
    cases e with
    | stopped r' t' =>
      cases h
      exact ⟨cursor, handed, hcursor, congrArg Prod.snd hrun, rfl,
        congrArg (fun x => x.1.budgets) hrun.symm⟩
    | failed e => cases h

/-- A single scan that stops for its time limit has handed out a row, whatever it skipped. -/
theorem run_of_isScan {x : Execution} (plan : Plan) (hplan : plan.IsScan) {cursor : Cursor Record}
    (hcursor : plan.execute x c p = .ok cursor)
    (hstop : (cursor.run w).2.2 = .stopped .timeLimit t) : (cursor.run w).2.1 ≠ [] := by
  match plan with
  | scan range reverse =>
    rw [execute, RecordStore.scan] at hcursor
    have opened := (x.records.keyScan range reverse x.budget).untimed_openAt x.world c
    cases hpairs : (x.records.keyScan range reverse x.budget).openAt x.world c with
    | error e =>
      change (x.records.keyScan range reverse x.budget).openAt x.world c >>= _ = _ at hcursor
      rw [hpairs] at hcursor
      cases hcursor
    | ok pairs =>
      change (x.records.keyScan range reverse x.budget).openAt x.world c >>= _ = _ at hcursor
      rw [hpairs] at hcursor opened
      cases hcursor
      exact (Untimed.tryMap opened _).run_skipThenLimit _ _ hstop
  | dynamic name leg key reverse =>
    rw [execute] at hcursor
    exact run_of_isScan leg hplan hcursor hstop

/-- A page that ends for the time limit has read a stored pair, after however many rows the clocks
of its cursors stop them.  If the plan is a single scan it has also returned a row, and so it has if
the plan does nothing but unite scans and the page is to skip no row. -/
theorem page_of_timeLimit (h : plan.page records bindings p c w = (w', .ok (rows, .timeLimit, t))) :
    1 ≤ (w'.budget w.budgets.length).scanned ∧
      (plan.IsScan ∨ plan.OnlyUnites ∧ (c.isStart = true → p.skip = 0) → rows ≠ []) := by
  obtain ⟨cursor, handed, hcursor, hrun, rfl, hbudgets⟩ := exists_of_page h
  have hend := congrArg Prod.snd hrun
  refine ⟨?_, fun hplan hnil => ?_⟩
  · have opened := opensTo_execute_timely (World.meters_budget w.budgets.length) plan (.inr id)
      (x := ⟨records, bindings, w.budgets.length, (w.newBudget p.scanLimit).1⟩) (c := c) (p := p)
      (.inr id)
    rw [hcursor] at opened
    have timely : cursor.Timely _ _ False := opened.1
    rcases timely.run (fun w wait => (World.meters_budget _).same (World.budgets_await w wait))
      (fun w wait => (World.meters_budget _).kept (World.budgets_await w wait))
      (newBudget_before w p.scanLimit) with ⟨-, hscanned⟩ | ⟨hhands, -⟩ | hother
    · rwa [World.budget_eq_of_budgets_eq hbudgets]
    · exact hhands.elim
    · exact absurd hend (hother t)
  · have hempty : (cursor.run (w.newBudget p.scanLimit).1).2.1 = [] := by
      rw [hrun]
      exact List.map_eq_nil_iff.1 hnil
    rcases hplan with hplan | ⟨hplan, hskip⟩
    · exact run_of_isScan plan hplan hcursor hend hempty
    · have opened := opensTo_execute_timely (World.meters_any w.budgets.length) plan (.inl hplan)
        (x := ⟨records, bindings, w.budgets.length, (w.newBudget p.scanLimit).1⟩) (.inl hskip)
      rw [hcursor] at opened
      have timely : cursor.Timely _ _ True := opened.1
      rcases timely.run (fun _ _ => id) (fun _ _ => id) trivial with hafter | ⟨-, hne⟩ | hother
      · exact hafter.elim
      · exact hne hempty
      · exact absurd hend (hother t)

/-- There is time for two rows after the one that is left out. -/
theorem page_of_timeLimit_sample :
    let page := (scan .all false).page sampleRecords []
      ((ScanProperties.forward.withTimeLimit (some sampleClocks)).withSkip 1) .start sampleWorld
    page.2 = .ok ([sampleRow 2 1, sampleRow 3 2], .timeLimit,
      (KeyPosition.mk (sampleRecords.keyOf [.int 3])).toContinuation) ∧
    1 ≤ (page.1.budget 0).scanned ∧ [sampleRow 2 1, sampleRow 3 2] ≠ [] := by
  have hpage : ((scan .all false).page sampleRecords []
      ((ScanProperties.forward.withTimeLimit (some sampleClocks)).withSkip 1) .start
      sampleWorld).2 = .ok ([sampleRow 2 1, sampleRow 3 2], .timeLimit,
        (KeyPosition.mk (sampleRecords.keyOf [.int 3])).toContinuation) := by cbv
  obtain ⟨hscanned, hrows⟩ := page_of_timeLimit (Prod.ext rfl hpage)
  exact ⟨hpage, hscanned, hrows (.inl trivial)⟩

/-- No limits but a time limit that has passed. -/
def sampleElapsed : ScanProperties := ScanProperties.forward.withTimeLimit (some .elapsed)

/-- The filter leaves out the only row that its scan hands out in time, so the page ends without a
row, and yet a row is stored that the filter lets pass. -/
theorem page_emptied :
    ((filter (.scan .all false) (.field "size") [.int 1]).page sampleRecords [] sampleElapsed .start
      sampleWorld).2 =
        .ok ([], .timeLimit, (KeyPosition.mk (sampleRecords.keyOf [.int 1])).toContinuation) ∧
      sampleRow 2 1 ∈ sampleRows ∧ keyIs (.field "size") [.int 1] (sampleRow 2 1) = true := by
  refine ⟨?_, List.mem_cons_of_mem _ List.mem_cons_self, ?_⟩ <;> cbv

end ResumableQuery.Plan
