import ResumableQuery.Proofs.Cursor.Confined
import ResumableQuery.Proofs.Plan.Selection

/-!
# Plans under forged continuations

A continuation may come from another plan or from nobody at all.  Executing a plan at it is refused
as an unusable argument, or it opens a cursor; nothing was read by then, since opening does not
change the world.  Whatever the continuation, the rows of that cursor are stored where a scan of the
plan looks and pass the filters above that scan (`execute_any_token`).
-/

namespace ResumableQuery.Plan

open Cursor

mutual

/-- Whether a plan may hand out a row that is stored under a key: the key lies in the range of a
scan of the plan, and the row passes all filters above that scan. -/
def Admits (records : RecordStore) : Plan → Bytes → Record → Prop
  | scan range _, key, _ => (range.toKeyRange records.subspace).contains key = true
  | filter child expression equals, key, r =>
    child.Admits records key r ∧ expression.evaluate r = .ok equals
  | merge _ legs _ _, key, r => LegsAdmit records legs key r
  | dynamic _ leg _ _, key, r => leg.Admits records key r

/-- Whether one of several legs may hand out a row that is stored under a key. -/
def LegsAdmit (records : RecordStore) : List (Alias × Plan) → Bytes → Record → Prop
  | [], _, _ => False
  | (_, leg) :: rest, key, r => leg.Admits records key r ∨ LegsAdmit records rest key r

end

/-- A row is the record that is stored under a key for which something holds. -/
def IsStored (stored : Bytes × Bytes → Prop) (admits : Bytes → Record → Prop) (row : Record) :
    Prop :=
  ∃ e, stored e ∧ RecordStore.decode e.2 = .ok row ∧ admits e.1 row

theorem IsStored.mono {stored : Bytes × Bytes → Prop} {admits admits' : Bytes → Record → Prop}
    {row : Record} (h : IsStored stored admits row)
    (hadmits : ∀ key, admits key row → admits' key row) : IsStored stored admits' row := by
  obtain ⟨e, he, hdecode, hkey⟩ := h
  exact ⟨e, he, hdecode, hadmits e.1 hkey⟩

section Openings

variable (x : Execution) (stored : Bytes × Bytes → Prop)

/-- Rows that are asked for while all stored pairs are among some others are made of those. -/
abbrev RowsAdmitted (admits : Bytes → Record → Prop) (rows : Cursor Record) : Prop :=
  rows.Confined (World.HoldsOnly x.records.store stored) (IsStored stored admits) fun _ => True

theorem opensTo_scan (range : TupleRange) (c : Continuation) (p : ScanProperties) :
    OpensTo (RowsAdmitted x stored fun key _ =>
        (range.toKeyRange x.records.subspace).contains key = true)
      (x.records.scan x.world range c p x.budget) := by
  rw [RecordStore.scan]
  have pairs := KeyScan.opensTo_openAt (x.records.keyScan range p.reverse x.budget) stored x.world c
  refine pairs.bind fun pairs hpairs => ?_
  have records := hpairs.tryMap RecordStore.decodePair
  refine (records.skipThenLimit trivial p trivial).mono (fun row hrow => ?_) fun _ h => h
  obtain ⟨e, ⟨he, hrange⟩, hdecode⟩ := hrow
  rw [RecordStore.decodePair] at hdecode
  cases hvalue : RecordStore.decode e.2 with
  | error fault =>
    rw [hvalue] at hdecode
    cases hdecode
  | ok row' =>
    rw [hvalue] at hdecode
    cases hdecode
    exact ⟨e, he, hvalue, hrange⟩

mutual

theorem opensTo_execute (plan : Plan) (c : Continuation) (p : ScanProperties) :
    OpensTo (RowsAdmitted x stored (plan.Admits x.records)) (plan.execute x c p) := by
  match plan with
  | scan range reverse =>
    rw [execute]
    exact opensTo_scan x stored range c (p.withReverse reverse)
  | filter child key equals =>
    rw [execute]
    refine (opensTo_execute child c p.clearSkipAndLimit.toFirst).bind fun rows hrows => ?_
    have limited := (hrows.filter (keyIs key equals)).skipThenLimit trivial p (t := c) trivial
    refine limited.mono (fun row hrow => ?_) fun _ h => h
    exact hrow.1.mono fun k hk => ⟨hk, keyIs_iff.1 hrow.2⟩
  | merge operation legs key reverse =>
    rw [execute]
    have rows := Merge.opensTo_openAt (m := merger x operation key reverse
      (merge operation legs key reverse).hash) (T := fun _ => True) trivial (fun _ => trivial)
      (opensTo_openers legs p.clearSkipAndLimit) c
    exact rows.bind fun rows hrows => hrows.skipThenLimit trivial p trivial
  | dynamic name leg key reverse =>
    rw [execute]
    exact opensTo_execute leg c p

theorem opensTo_openers (legs : List (Alias × Plan)) (p : ScanProperties) :
    ∀ opener ∈ openers x p legs, ∀ c,
      OpensTo (RowsAdmitted x stored (LegsAdmit x.records legs)) (opener c) := by
  match legs with
  | [] =>
    intro opener h
    cases h
  | (name, leg) :: rest =>
    rw [openers]
    refine List.forall_mem_cons.2 ⟨fun c => ?_, fun opener h c => ?_⟩
    · refine (opensTo_execute leg c p.toFirst).mono fun rows hrows => ?_
      exact hrows.mono (fun row hrow => hrow.mono fun key hkey => .inl hkey) fun _ h => h
    · refine (opensTo_openers rest p.toOthers opener h c).mono fun rows hrows => ?_
      exact hrows.mono (fun row hrow => hrow.mono fun key hkey => .inr hkey) fun _ h => h

end

end Openings

/-- Executing a plan at any continuation is refused as an unusable argument, or it gives a cursor.
In whatever worlds that cursor is asked, one after the other, each of its rows is read from a pair
of one of them, and the plan admits it under the key of that pair. -/
theorem execute_any_token (x : Execution) (plan : Plan) (c : Continuation) (p : ScanProperties) :
    (∃ e, plan.execute x c p = .error (.invalidArgument e)) ∨
      ∃ rows, plan.execute x c p = .ok rows ∧
        ∀ ws : List World, ∀ r ∈ (rows.answers ws).1,
          ∃ w ∈ ws, ∃ pair ∈ w.store x.records.store,
            RecordStore.decode pair.2 = .ok r.1 ∧ plan.Admits x.records pair.1 r.1 := by
  cases hrows : plan.execute x c p with
  | error e =>
    have opened := opensTo_execute x (fun _ => True) plan c p
    rw [hrows] at opened
    refine opened.cases_on.imp_right fun h => ?_
    obtain ⟨b, hb, -⟩ := h
    cases hb
  | ok rows =>
    refine .inr ⟨rows, rfl, fun ws r hr => ?_⟩
    let stored : Bytes × Bytes → Prop := fun e => ∃ w ∈ ws, e ∈ w.store x.records.store
    have opened := opensTo_execute x stored plan c p
    rw [hrows] at opened
    have confined : RowsAdmitted x stored (plan.Admits x.records) rows := opened
    have answers := (confined.answers
      (fun w wait hw => hw.later (World.sameContent_await w wait))
      fun w hw e he => ⟨w, hw, he⟩).1 r hr
    obtain ⟨e, ⟨w, hw, he⟩, hdecode, hadmits⟩ := answers.1
    exact ⟨w, hw, e, he, hdecode, hadmits⟩

/-- Positions of merges, given to a scan: the first names a key of seven zero bytes, and the second
one that is longer than the position. -/
example :
    let x : Execution := ⟨sampleRecords, [], 0, sampleWorld⟩
    let opened (planHash : UInt64) :=
      (scan .all false).execute x (MergePosition.of planHash []).toContinuation .forward
    ((opened 7).toOption.map fun rows =>
      (rows.answers [sampleWorld, sampleWorld]).1.map (·.1.primaryKey)) =
        some [[.int 1], [.int 2]] ∧ (opened 9).toOption.isNone = true := by
  decide +kernel

end ResumableQuery.Plan
