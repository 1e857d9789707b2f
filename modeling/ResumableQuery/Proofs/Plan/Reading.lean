import ResumableQuery.Plan.Basic
import ResumableQuery.Proofs.Cursor.KeyScan
import ResumableQuery.Proofs.Cursor.Merge

/-!
# Plans follow their readings

Over a store that does not change, the continuations of a plan stand for rows and stored pairs as
its parts say: a scan for the records of its key range, a filter for those of its child's rows that
pass, a merge for what comes of its legs (`Plan.reading`).  Opened at such a continuation, a plan
hands out what is ahead of it (`Plan.follows_supply`), whatever the request and the budget.

A continuation holds the continuations of all parts below, with their lengths as words of eight
bytes, so it can be read back only if it is shorter than `2 ^ 64` bytes, as everything that a machine
can hold is.  `Plan.tokenSize` bounds its length.
-/

namespace ResumableQuery

open Cursor

/-- The length of the longest key. -/
def Store.keyLength (s : Store) : Nat := s.foldr (fun e n => max e.1.length n) 0

theorem Store.length_le_keyLength {s : Store} {e : Bytes × Bytes} (h : e ∈ s) :
    e.1.length ≤ s.keyLength := by
  induction s with
  | nil => cases h
  | cons e' s ih =>
    rcases List.mem_cons.1 h with rfl | h
    · exact Nat.le_max_left _ _
    · exact Nat.le_trans (ih h) (Nat.le_max_right _ _)

/-- The record of a stored pair, or the failure of the cursor that comes upon it. -/
def RecordStore.decodePair (e : Bytes × Bytes) : Except CursorError Record :=
  (decode e.2).mapError fun e => CursorError.ofCause (.store e)

namespace Cursor

theorem limitFrom_withReverse (p : ScanProperties) (r : Bool) (skip n : Nat) (c : Cursor α) :
    limitFrom (p.withReverse r) skip n c = limitFrom p skip n c := by
  have reached (k : Nat) : reachedLimit (p.withReverse r) k = reachedLimit p k := rfl
  induction c generalizing skip n with
  | row v t rest ih =>
    rw [limitFrom, limitFrom]
    split
    · refine congrArg (row v t) (funext fun _ => ?_)
      rw [reached]
      cases reachedLimit p (n + 1) with
      | none => exact ih () 0 (n + 1)
      | some => rfl
    · exact ih () (skip - 1) n
  | stop | fail => rfl
  | consult k ih => exact congrArg consult (funext fun w => ih w skip n)
  | commit w c ih => exact congrArg (commit w) (ih skip n)
  | pause wait rest ih => exact congrArg (pause wait) (funext fun _ => ih () skip n)

theorem skipThenLimit_withReverse (p : ScanProperties) (r : Bool) (c : Continuation)
    (source : Cursor α) : skipThenLimit (p.withReverse r) c source = skipThenLimit p c source := by
  unfold skipThenLimit
  rw [limitFrom_withReverse]
  rfl

end Cursor

namespace ScanProperties

/-- The request asks for all rows, as all that reach the parts of a plan do. -/
structure AsksForAll (p : ScanProperties) : Prop where
  skip : p.skip = 0
  limit : p.limit = none

namespace AsksForAll

variable {p : ScanProperties}

theorem clearSkipAndLimit (p : ScanProperties) : p.clearSkipAndLimit.AsksForAll := ⟨rfl, rfl⟩

theorem toFirst (h : p.AsksForAll) : p.toFirst.AsksForAll := ⟨h.skip, h.limit⟩

theorem toOthers (h : p.AsksForAll) : p.toOthers.AsksForAll := ⟨h.skip, h.limit⟩

end AsksForAll

end ScanProperties

/-- What plans are executed over: records, what is bound to aliases, and all stored pairs. -/
structure Snapshot where
  records : RecordStore
  bindings : Bindings
  content : Store
  sorted : content.Sorted

namespace Plan

/-! ### Rows before limits -/

/-- The rows of a plan before some are left out and the others limited. -/
def supply (x : Execution) : Plan → Continuation → ScanProperties →
    Except CursorError (Cursor Record)
  | scan range reverse, c, _ => do
    let pairs ← (x.records.keyScan range reverse x.budget).openAt x.world c
    return pairs.tryMap RecordStore.decodePair
  | filter child key equals, c, p => do
    let rows ← child.execute x c p.clearSkipAndLimit.toFirst
    return rows.filter (keyIs key equals)
  | merge operation legs key reverse, c, p =>
    let m := merger x operation key reverse (merge operation legs key reverse).hash
    m.openAt (openers x p.clearSkipAndLimit legs) c
  | dynamic _ leg _ _, c, p => leg.supply x c p

/-- Executing a plan leaves out and limits its rows. -/
theorem execute_eq_supply (x : Execution) (plan : Plan) (c : Continuation) (p : ScanProperties) :
    plan.execute x c p = (plan.supply x c p).map (skipThenLimit p c) := by
  match plan with
  | scan range reverse =>
    rw [execute, supply, RecordStore.scan]
    show ((x.records.keyScan range reverse x.budget).openAt x.world c >>= _) = _
    cases (x.records.keyScan range reverse x.budget).openAt x.world c with
    | error => rfl
    | ok pairs => exact congrArg Except.ok (skipThenLimit_withReverse p reverse c _)
  | filter child key equals =>
    rw [execute, supply]
    cases child.execute x c p.clearSkipAndLimit.toFirst with
    | error => rfl
    | ok => rfl
  | merge operation legs key reverse =>
    rw [execute, supply]
    cases (merger x operation key reverse (merge operation legs key reverse).hash).openAt
      (openers x p.clearSkipAndLimit legs) c with
    | error => rfl
    | ok => rfl
  | dynamic name leg key reverse =>
    rw [execute, supply]
    exact execute_eq_supply x leg c p

/-! ### The reading of a plan -/

mutual

/-- What the continuations of a plan stand for. -/
def reading (s : Snapshot) : Plan → Reading Record
  | scan range reverse =>
    ((s.records.keyScan range reverse 0).reading s.content).tryMap RecordStore.decodePair
  | filter child key equals => (child.reading s).filter (keyIs key equals)
  | merge operation legs key reverse =>
    (Merge.mk operation (key.ofRow s.bindings) reverse
      (merge operation legs key reverse).hash).reading (readings s legs)
  | dynamic _ leg _ _ => leg.reading s

/-- What the continuations of the legs of a merge stand for. -/
def readings (s : Snapshot) : List (Alias × Plan) → List (Reading Record)
  | [] => []
  | (_, leg) :: rest => leg.reading s :: readings s rest

end

mutual

/-- A bound on the lengths of the continuations of a plan, given one on the lengths of keys. -/
def tokenSize (keyLength : Nat) : Plan → Nat
  | scan _ _ => 9 + keyLength
  | filter child _ _ => child.tokenSize keyLength
  | merge _ legs _ _ => 17 + legsTokenSize keyLength legs
  | dynamic _ leg _ _ => leg.tokenSize keyLength

/-- A bound on the lengths of the continuations of legs as a merge holds them. -/
def legsTokenSize (keyLength : Nat) : List (Alias × Plan) → Nat
  | [] => 0
  | (_, leg) :: rest => 8 + leg.tokenSize keyLength + legsTokenSize keyLength rest

end

mutual

theorem length_toBytes_le (s : Snapshot) (plan : Plan) {c : Continuation}
    (hc : (plan.reading s).issued c) : c.toBytes.length ≤ plan.tokenSize s.content.keyLength := by
  match plan with
  | scan range reverse =>
    rw [tokenSize]
    rw [reading] at hc
    rcases hc with rfl | rfl | ⟨e, he, rfl⟩
    · exact Nat.zero_le _
    · show 1 ≤ _
      omega
    · rw [KeyPosition.length_toContinuation]
      show 9 + e.1.length ≤ _
      have := Store.length_le_keyLength he
      omega
  | filter child key equals =>
    rw [reading] at hc
    rw [tokenSize]
    exact length_toBytes_le s child hc
  | merge operation legs key reverse =>
    rw [reading] at hc
    rw [tokenSize]
    rcases hc with rfl | rfl | ⟨ts, hts, rfl, -⟩
    · exact Nat.zero_le _
    · show 1 ≤ _
      omega
    · rw [Merge.place, MergePosition.length_toContinuation]
      have := sum_length_toBytes_le s legs hts
      omega
  | dynamic name leg key reverse =>
    rw [reading] at hc
    rw [tokenSize]
    exact length_toBytes_le s leg hc

theorem sum_length_toBytes_le (s : Snapshot) (legs : List (Alias × Plan)) {ts : List Continuation}
    (hts : List.Forall₂ (fun D t => D.issued t) (readings s legs) ts) :
    (ts.map fun t => 8 + t.toBytes.length).sum ≤ legsTokenSize s.content.keyLength legs := by
  match legs with
  | [] =>
    rw [readings] at hts
    cases hts
    exact Nat.le_refl _
  | (name, leg) :: rest =>
    rw [readings] at hts
    cases hts with
    | cons ht hts =>
      have := length_toBytes_le s leg ht
      have := sum_length_toBytes_le s rest hts
      rw [List.map_cons, List.sum_cons, legsTokenSize]
      omega

end

/-- The continuations of a merge can be read back if they are not too long. -/
theorem readable (s : Snapshot) (m : Merge Record) (legs : List (Alias × Plan))
    (h : legsTokenSize s.content.keyLength legs < 2 ^ 64) : m.Readable (readings s legs) := by
  intro ts hts
  have hsum := sum_length_toBytes_le s legs hts
  have each : ∀ l : List Continuation,
      l.length ≤ (l.map fun t => 8 + t.toBytes.length).sum ∧
        ∀ t ∈ l, t.toBytes.length ≤ (l.map fun t => 8 + t.toBytes.length).sum := by
    intro l
    induction l with
    | nil => exact ⟨Nat.le_refl _, nofun⟩
    | cons t l ih =>
      rw [List.map_cons, List.sum_cons, List.length_cons]
      refine ⟨by omega, fun t' ht' => ?_⟩
      rcases List.mem_cons.1 ht' with rfl | ht'
      · omega
      · have := ih.2 t' ht'
        omega
  obtain ⟨hlength, htokens⟩ := each ts
  rw [hts.length_eq]
  exact m.resume_place (by omega) fun t ht => by have := htokens t ht; omega

mutual

/-- The number of scans that a plan is made of. -/
def scanCount : Plan → Nat
  | scan _ _ => 1
  | filter child _ _ => child.scanCount
  | merge _ legs _ _ => legsScanCount legs
  | dynamic _ leg _ _ => leg.scanCount

/-- The number of scans that the legs of a merge are made of. -/
def legsScanCount : List (Alias × Plan) → Nat
  | [] => 0
  | (_, leg) :: rest => leg.scanCount + legsScanCount rest

end

mutual

/-- Each scan of a plan has no more pairs ahead than are stored. -/
theorem count_outlook_le (s : Snapshot) (plan : Plan) (c : Continuation) :
    ((plan.reading s).outlook c).count ≤ plan.scanCount * s.content.length := by
  match plan with
  | scan range reverse =>
    rw [reading, scanCount, Nat.one_mul]
    exact KeyScan.length_pendingAt_le c
  | filter child key equals =>
    rw [reading, scanCount]
    exact count_outlook_le s child c
  | merge operation legs key reverse =>
    rw [reading, scanCount]
    exact count_outlookOf_le s legs _
  | dynamic name leg key reverse =>
    rw [reading, scanCount]
    exact count_outlook_le s leg c

theorem count_outlookOf_le (s : Snapshot) (legs : List (Alias × Plan)) (ts : List Continuation) :
    (Legs.outlookOf (readings s legs) ts).count ≤ legsScanCount legs * s.content.length := by
  match legs, ts with
  | [], _ =>
    rw [readings]
    exact Nat.zero_le _
  | _ :: _, [] =>
    rw [Legs.outlookOf, List.zipWith_nil_right]
    exact Nat.zero_le _
  | (name, leg) :: rest, t :: ts =>
    have hleg := count_outlook_le s leg t
    have hrest := count_outlookOf_le s rest ts
    rw [readings, legsScanCount, Nat.add_mul]
    show Outlook.count ((leg.reading s).outlook t ++ Legs.outlookOf (readings s rest) ts) ≤ _
    rw [Outlook.count_append]
    omega

end

/-! ### Execution -/

/-- The execution takes place over a snapshot. -/
structure Execution.Over (x : Execution) (s : Snapshot) : Prop where
  records : x.records = s.records
  bindings : x.bindings = s.bindings
  content : x.world.store s.records.store = s.content

/-- The worlds in which a snapshot is read on a budget. -/
abbrev Serves (s : Snapshot) (id : BudgetId) (limited : Bool) (w : World) : Prop :=
  w.Serves s.records.store s.content id limited

section Execute

variable {s : Snapshot} {x : Execution} {limited : Bool}

/-- Rows that follow a reading follow it within the limits of a request for all rows. -/
theorem follows_of_supply {W : World → Prop} {D : Reading Record} {plan : Plan}
    {p : ScanProperties} (hp : p.AsksForAll) (hb : Bounds limited p) {c : Continuation}
    (h : ∃ rows, plan.supply x c p = .ok rows ∧ Follows W D limited rows true c) :
    ∃ rows, plan.execute x c p = .ok rows ∧ Follows W D limited rows true c := by
  obtain ⟨rows, hrows, hfollows⟩ := h
  have some_rows : p.limit ≠ some 0 := by
    rw [hp.limit]
    exact nofun
  refine ⟨_, ?_, hfollows.skipThenLimit hb hp.skip some_rows⟩
  rw [execute_eq_supply, hrows]
  rfl

theorem follows_supply_scan (hx : x.Over s) {range : TupleRange} {reverse : Bool}
    (hsize : 9 + s.content.keyLength < 2 ^ 64) {p : ScanProperties} {c : Continuation}
    (hc : ((scan range reverse).reading s).issued c) :
    ∃ rows, (scan range reverse).supply x c p = .ok rows ∧
      Follows (Serves s x.budget limited) ((scan range reverse).reading s) limited rows true c := by
  have keys : KeyScan.KeysFit s.content := fun e he => by
    have := Store.length_le_keyLength he
    omega
  rw [reading] at hc ⊢
  obtain ⟨pairs, hpairs, hfollows⟩ := KeyScan.follows_openAt limited
    (s := s.records.keyScan range reverse x.budget) s.sorted keys hx.content hc
  refine ⟨_, ?_, hfollows.tryMap RecordStore.decodePair⟩
  rw [supply, hx.records, hpairs]
  rfl

mutual

/-- The rows of a plan that is opened at one of its continuations are those ahead of it. -/
theorem follows_supply (hx : x.Over s) (plan : Plan)
    (hsize : plan.tokenSize s.content.keyLength < 2 ^ 64) {p : ScanProperties}
    (hb : Bounds limited p) {c : Continuation} (hc : (plan.reading s).issued c) :
    ∃ rows, plan.supply x c p = .ok rows ∧
      Follows (Serves s x.budget limited) (plan.reading s) limited rows true c := by
  match plan with
  | scan range reverse =>
    rw [tokenSize] at hsize
    exact follows_supply_scan hx hsize hc
  | filter child key equals =>
    rw [tokenSize] at hsize
    rw [reading] at hc ⊢
    have hfirst := hb.clearSkipAndLimit.toFirst
    obtain ⟨rows, hrows, hfollows⟩ := follows_of_supply
      (ScanProperties.AsksForAll.clearSkipAndLimit p).toFirst hfirst
      (follows_supply hx child hsize hfirst hc)
    refine ⟨_, ?_, hfollows.filter (keyIs key equals)⟩
    rw [supply, hrows]
    rfl
  | merge operation legs key reverse =>
    rw [tokenSize] at hsize
    rw [reading] at hc ⊢
    rw [supply, merger, hx.bindings]
    exact Merge.follows_openAt (readable s _ legs (by omega))
      (opens_openers hx legs (by omega) (.clearSkipAndLimit p) hb.clearSkipAndLimit) hc
  | dynamic name leg key reverse =>
    rw [tokenSize] at hsize
    rw [reading] at hc ⊢
    rw [supply]
    exact follows_supply hx leg hsize hb hc

theorem opens_openers (hx : x.Over s) (legs : List (Alias × Plan))
    (hsize : legsTokenSize s.content.keyLength legs < 2 ^ 64) {p : ScanProperties}
    (hp : p.AsksForAll) (hb : Bounds limited p) :
    List.Forall₂ (Merge.Opens (Serves s x.budget limited) limited) (readings s legs)
      (openers x p legs) := by
  match legs with
  | [] =>
    rw [readings, openers]
    exact .nil
  | (name, leg) :: rest =>
    rw [legsTokenSize] at hsize
    rw [readings, openers]
    refine .cons (fun t htoken => ?_) (opens_openers hx rest (by omega) hp.toOthers hb.toOthers)
    exact follows_of_supply hp.toFirst hb.toFirst
      (follows_supply hx leg (by omega) hb.toFirst htoken)

end

end Execute

end Plan

end ResumableQuery
