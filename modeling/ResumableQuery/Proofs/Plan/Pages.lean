import ResumableQuery.Plan.Pages
import ResumableQuery.Proofs.Plan.Reading

/-!
# Reading page by page

However a plan is cut into pages, the rows of the pages are those of a single execution, and every
page that ends for a limit gets the plan further.
-/

namespace ResumableQuery

open Cursor

/-- The request leaves nothing out and limits nothing. -/
structure ScanProperties.Unlimited (p : ScanProperties) : Prop where
  skip : p.skip = 0
  limit : p.limit = none
  timeLimit : p.timeLimit = none
  scanLimit : p.scanLimit = none

theorem ScanProperties.Unlimited.forward : ScanProperties.forward.Unlimited := ⟨rfl, rfl, rfl, rfl⟩

/-- The request is another one with the same bounds.  How far a bound on time lets the cursors come
may differ, since that is up to their clocks. -/
structure ScanProperties.Repeats (p q : ScanProperties) : Prop where
  skip : p.skip = q.skip
  limit : p.limit = q.limit
  scanLimit : p.scanLimit = q.scanLimit
  reverse : p.reverse = q.reverse
  timed : p.timeLimit.isSome = q.timeLimit.isSome

/-- The world holds what the snapshot shows, and no call of a store fails in it. -/
structure Snapshot.ShownBy (s : Snapshot) (w : World) : Prop where
  content : w.store s.records.store = s.content
  calls : w.callsLeft = none

namespace Plan

/-- The lengths of the continuations of the plan fit a machine word, as those of all byte strings
that a machine can hold do. -/
def Fits (plan : Plan) (s : Snapshot) : Prop := plan.tokenSize s.content.keyLength < 2 ^ 64

/-- How many rows an execution has before some are left out and the others limited. -/
def supplied (plan : Plan) (records : RecordStore) (bindings : Bindings) (p : ScanProperties)
    (c : Continuation) (w : World) : Nat :=
  let (w, budget) := w.newBudget p.scanLimit
  match plan.supply ⟨records, bindings, budget, w⟩ c p with
  | .ok rows => (rows.run w).2.1.length
  | .error _ => 0

variable {s : Snapshot} {plan : Plan} {w : World} {p : ScanProperties} {c : Continuation}

/-! ### One page -/

theorem serves_newBudget {limited : Bool} {limit : Option Nat} (hw : s.ShownBy w)
    (hl : limited = false → limit = none) :
    Serves s (w.newBudget limit).2 limited (w.newBudget limit).1 where
  content := hw.content
  calls := hw.calls
  budget h := by
    show ((w.budgets ++ [Budget.new limit])[w.budgets.length]?.getD (Budget.new none)).limit = none
    rw [List.getElem?_concat_length, Option.getD_some]
    exact hl h

/-- What has come of a page, after some rows that were left out. -/
def PageReaped (D : Reading Record) (limited fresh : Bool) (c : Continuation)
    (left : List Record) : Except CursorError (List Record × StopReason × Continuation) → Prop
  | .ok (rows, r, t) => Reaped D limited fresh c (left ++ rows) (.stopped r t)
  | .error e => ∃ rows, Reaped D limited fresh c (left ++ rows) (.failed e)

/-- A page is what comes of rows that follow the plan, some of them left out and the others
limited. -/
theorem exists_page_eq (hfit : plan.Fits s) (hw : s.ShownBy w) (limited : Bool)
    (hb : Bounds limited p) (hl : limited = false → p.scanLimit = none)
    (hc : (plan.reading s).issued c) :
    ∃ id w' rows, Serves s id limited w' ∧
      Follows (Serves s id limited) (plan.reading s) limited rows true c ∧
      plan.page s.records s.bindings p c w = (Handle.new (skipThenLimit p c rows)).collect w' ∧
      plan.supplied s.records s.bindings p c w = (rows.run w').2.1.length := by
  obtain ⟨rows, hrows, hfollows⟩ := follows_supply
    (x := ⟨s.records, s.bindings, (w.newBudget p.scanLimit).2, (w.newBudget p.scanLimit).1⟩)
    ⟨rfl, rfl, hw.content⟩ plan hfit hb hc
  refine ⟨_, _, rows, serves_newBudget hw hl, hfollows, ?_, ?_⟩
  · simp only [page, execute_eq_supply, hrows]
    rfl
  · simp only [supplied, hrows]

/-- A page of no rows ends where it begins. -/
theorem page_of_limit_zero (hfit : plan.Fits s) (hw : s.ShownBy w)
    (hc : (plan.reading s).issued c) (h0 : p.limit = some 0) :
    ∃ w', s.ShownBy w' ∧
      plan.page s.records s.bindings p c w = (w', .ok ([], .returnLimit, c)) := by
  obtain ⟨id, w', rows, hserves, -, hpage, -⟩ :=
    exists_page_eq hfit hw true (p := p) nofun nofun hc
  have hr : reachedLimit p 0 = some .returnLimit := by
    rw [reachedLimit, h0]
    rfl
  have hstop : skipThenLimit p c rows = .stop .returnLimit c := by
    rw [skipThenLimit, hr]
    rfl
  rw [hpage, hstop]
  exact ⟨w'.dropAll, ⟨hserves.content, hserves.calls⟩, rfl⟩

/-- A page hands out what is ahead of its continuation, after as many rows as are to be left out or
as there are. -/
theorem page_spec (hfit : plan.Fits s) (hw : s.ShownBy w) (limited : Bool)
    (hb : Bounds limited p) (hl : limited = false → p.scanLimit = none)
    (hc : (plan.reading s).issued c) :
    s.ShownBy (plan.page s.records s.bindings p c w).1 ∧
      (∀ rows r t, (plan.page s.records s.bindings p c w).2 = .ok (rows, r, t) → rows ≠ [] →
        (if c.isStart then p.skip else 0) < plan.supplied s.records s.bindings p c w) ∧
      ∃ left : List Record, left.length ≤ (if c.isStart then p.skip else 0) ∧
        (p.limit ≠ some 0 → left.length = min (if c.isStart then p.skip else 0)
          (plan.supplied s.records s.bindings p c w)) ∧
        PageReaped (plan.reading s) limited (p.limit ≠ some 0) c left
          (plan.page s.records s.bindings p c w).2 := by
  by_cases h0 : p.limit = some 0
  · obtain ⟨w', hw', hpage⟩ := page_of_limit_zero hfit hw hc h0
    have hr : reachedLimit p 0 = some .returnLimit := by
      rw [reachedLimit, h0]
      rfl
    rw [hpage]
    refine ⟨hw', fun rows r t h hne => ?_, [], Nat.zero_le _, fun h => absurd h0 h, hc, .refl _,
      fun h => ?_,
      fun _ => ⟨hb.of_reachedLimit hr, .refl _, fun h => absurd h0 (of_decide_eq_true h)⟩⟩
    · cases h
      exact absurd rfl hne
    · cases h
  · obtain ⟨id, w₁, rows, hserves, hfollows, hpage, hsupplied⟩ :=
      exists_page_eq hfit hw limited hb hl hc
    have hlimit : skipThenLimit p c rows =
        limitFrom p (if c.isStart then p.skip else 0) 0 rows := by
      rw [skipThenLimit, reachedLimit_zero h0]
    obtain ⟨hw', hout, left, hlen, hreaped⟩ := run_limitFrom hfollows hb
      (if c.isStart then p.skip else 0) 0 hserves
    rw [hpage, hsupplied, hlimit,
      show decide (p.limit ≠ some 0) = true from decide_eq_true h0]
    rcases hrun : (limitFrom p (if c.isStart then p.skip else 0) 0 rows).run w₁ with ⟨w', out, e⟩
    rw [hrun] at hw' hout hreaped
    rw [collect_new hrun]
    cases e with
    | stopped r t =>
      refine ⟨⟨hw'.content, hw'.calls⟩, fun rows r t h hne => hout fun hnil => ?_, left, by omega,
        fun _ => hlen, hreaped⟩
      cases h
      exact hne (congrArg (List.map (·.1)) hnil)
    | failed e =>
      refine ⟨⟨hw'.content, hw'.calls⟩, fun rows r t h => ?_, left, by omega, fun _ => hlen, _,
        hreaped⟩
      cases h

/-! ### Pages of rows that are ahead -/

theorem handOver_eq (request : Request) (t : Continuation) : request.handOver t = .ok t := by
  unfold Request.handOver
  split
  · rw [Continuation.ofBase64_toBase64]
    rfl
  · rfl

/-- A page has taken rows off those that were ahead, and has got further unless it ran dry. -/
structure Turned (s : Snapshot) (plan : Plan) (p : ScanProperties) (c : Continuation) (w : World)
    (ahead : List Record) (w' : World) (rows : List Record) (r : StopReason) (t : Continuation)
    (left rest : List Record) : Prop where
  page : plan.page s.records s.bindings p c w = (w', .ok (rows, r, t))
  shown : s.ShownBy w'
  issued : (plan.reading s).issued t
  ahead_eq : ahead = left ++ (rows ++ rest)
  ahead_next : (plan.reading s).ahead t = .ofList rest
  dry : r.isLimit = false → rest = []
  passes : r.isLimit = true → p.limit ≠ some 0 → (plan.reading s).Passes c t
  length_le : left.length ≤ if c.isStart then p.skip else 0
  skip_lt : rows ≠ [] →
    (if c.isStart then p.skip else 0) < plan.supplied s.records s.bindings p c w
  length_eq : p.limit ≠ some 0 →
    left.length = min (if c.isStart then p.skip else 0) (plan.supplied s.records s.bindings p c w)

theorem isLimit_of_ne {r : StopReason} (h : r ≠ .sourceExhausted) : r.isLimit = true := by
  cases r with
  | sourceExhausted => exact absurd rfl h
  | returnLimit | timeLimit | scanLimit => rfl

theorem Turned.count_lt {ahead : List Record} {w' : World} {rows : List Record} {r : StopReason}
    {t : Continuation} {left rest : List Record}
    (h : Turned s plan p c w ahead w' rows r t left rest) (hr : r ≠ .sourceExhausted)
    (h0 : p.limit ≠ some 0) :
    ((plan.reading s).outlook t).count < ((plan.reading s).outlook c).count :=
  (h.passes (isLimit_of_ne hr) h0).count_lt

/-- Where nothing that is ahead fails, a page hands out the next rows and says where to go on. -/
theorem exists_turned (hfit : plan.Fits s) (hw : s.ShownBy w) (hc : (plan.reading s).issued c)
    {l : List Record} (hl : (plan.reading s).ahead c = .ofList l) (p : ScanProperties) :
    ∃ w' rows r t left rest, Turned s plan p c w l w' rows r t left rest := by
  obtain ⟨hw', hlt, left, hle, hlen, hreaped⟩ :=
    page_spec hfit hw true (p := p) nofun nofun hc
  rcases hpage : plan.page s.records s.bindings p c w with ⟨w', result⟩
  rw [hpage] at hw' hlt hreaped
  cases result with
  | error e =>
    obtain ⟨rows, hleads⟩ := hreaped
    rw [Reaped, hl] at hleads
    obtain ⟨rest, -, hrest⟩ := hleads.of_ofList
    exact absurd hrest.symm (Prospect.ofList_ne_failure rest)
  | ok result =>
    obtain ⟨rows, r, t⟩ := result
    obtain ⟨issued, hleads, done, reach⟩ := hreaped
    rw [hl] at hleads
    obtain ⟨rest, heq, hrest⟩ := hleads.of_ofList
    refine ⟨w', rows, r, t, left, rest, hpage, hw', issued, ?_, hrest, fun hr => ?_,
      fun hr h0 => ?_, hle, hlt rows r t rfl, hlen⟩
    · rw [heq, List.append_assoc]
    · rw [done hr, (plan.reading s).ahead_done] at hrest
      exact Prospect.ofList_eq_exhausted hrest.symm
    · exact (reach hr).2.2 (decide_eq_true h0)

/-- Page after page hands out the first of some rows, and all of them once a page has run dry, which
one has if there were enough pages. -/
def HandsOut (rows : List Record) (enough : Prop)
    (result : Except CursorError (List (List Record) × Option Continuation)) : Prop :=
  ∃ pages last, result = .ok (pages, last) ∧ pages.flatten <+: rows ∧
    (last = none → pages.flatten = rows) ∧ (enough → last = none)

theorem pages_cons {request : Request} {requests : List Request} {w' : World} {rows : List Record}
    {r : StopReason} {t : Continuation}
    (h : plan.page s.records s.bindings request.properties c w = (w', .ok (rows, r, t))) :
    (plan.pages s.records s.bindings (request :: requests) c w).2 =
      if r = .sourceExhausted then .ok ([rows], none)
      else (plan.pages s.records s.bindings requests t w').2.map fun (more, last) =>
        (rows :: more, last) := by
  rw [pages, h]
  simp only [handOver_eq]
  split
  · rfl
  · rcases plan.pages s.records s.bindings requests t w' with ⟨w'', ⟨more, last⟩ | e⟩ <;> rfl

theorem pages_cons_error {records : RecordStore} {bindings : Bindings} {request : Request}
    {requests : List Request} {e : CursorError}
    (h : (plan.page records bindings request.properties c w).2 = .error e) :
    (plan.pages records bindings (request :: requests) c w).2 = .error e := by
  rw [pages]
  rcases hpage : plan.page records bindings request.properties c w with ⟨w', result⟩
  rw [hpage] at h
  cases h
  rfl

/-- A page before other pages. -/
theorem Turned.handsOut {request : Request} {requests : List Request} {l : List Record}
    {w' : World} {rows : List Record} {r : StopReason} {t : Continuation} {left rest : List Record}
    (h : Turned s plan request.properties c w l w' rows r t left rest) {enough enough' : Prop}
    (he : r ≠ .sourceExhausted → enough' → enough)
    (hrest : r ≠ .sourceExhausted →
      HandsOut rest enough (plan.pages s.records s.bindings requests t w').2) :
    HandsOut (rows ++ rest) enough'
      (plan.pages s.records s.bindings (request :: requests) c w).2 := by
  rw [pages_cons h.page]
  split
  · rename_i hr
    rw [h.dry (by rw [hr]; rfl), List.append_nil]
    exact ⟨[rows], none, rfl, by simp, fun _ => by simp, fun _ => rfl⟩
  · rename_i hr
    obtain ⟨more, last, hmore, hprefix, hall, hend⟩ := hrest hr
    rw [hmore]
    refine ⟨rows :: more, last, rfl, ?_, fun hlast => ?_, fun h => hend (he hr h)⟩
    · rw [List.flatten_cons]
      exact List.prefix_append_right_inj rows |>.2 hprefix
    · rw [List.flatten_cons, hall hlast]

/-- Pages that leave nothing out hand out the rows that are ahead. -/
theorem handsOut_of_ahead (hfit : plan.Fits s) (requests : List Request) (hw : s.ShownBy w)
    (hc : (plan.reading s).issued c) {l : List Record} (hl : (plan.reading s).ahead c = .ofList l)
    (hskip : (∀ r ∈ requests, r.properties.skip = 0) ∨
      ((plan.reading s).outlook c).count < ((plan.reading s).outlook .start).count ∧
        ∀ r ∈ requests, r.properties.limit ≠ some 0) :
    HandsOut l ((∀ r ∈ requests, r.properties.limit ≠ some 0) ∧
        ((plan.reading s).outlook c).count < requests.length)
      (plan.pages s.records s.bindings requests c w).2 := by
  induction requests generalizing c w l with
  | nil => exact ⟨[], some c, rfl, List.nil_prefix, nofun, fun h => absurd h.2 (Nat.not_lt_zero _)⟩
  | cons request requests ih =>
    obtain ⟨w', rows, r, t, left, rest, h⟩ := exists_turned hfit hw hc hl request.properties
    -- beyond the beginning nothing is left out, and no page comes back to it
    have hleft : left = [] := by
      have hle := h.length_le
      refine List.length_eq_zero_iff.1 (Nat.le_zero.1 (Nat.le_trans hle ?_))
      split
      · rename_i hstart
        rcases hskip with h0 | ⟨hc, -⟩
        · exact Nat.le_of_eq (h0 request List.mem_cons_self)
        · rw [show c = .start by cases c <;> first | rfl | cases hstart] at hc
          omega
      · exact Nat.le_refl 0
    rw [h.ahead_eq, hleft, List.nil_append]
    refine h.handsOut (fun hr he => ?_) fun hr => ih h.shown h.issued h.ahead_next ?_
    · obtain ⟨h0, hlen⟩ := he
      obtain ⟨h0, h0s⟩ := List.forall_mem_cons.1 h0
      have hp := h.count_lt hr h0
      rw [List.length_cons] at hlen
      exact ⟨h0s, by omega⟩
    · rcases hskip with h0 | ⟨hc, h0⟩
      · exact .inl (List.forall_mem_cons.1 h0).2
      · obtain ⟨h0, h0s⟩ := List.forall_mem_cons.1 h0
        have hp := h.count_lt hr h0
        exact .inr ⟨by omega, h0s⟩

/-- Pages of no rows hand out none. -/
theorem pages_of_limit_zero (hfit : plan.Fits s) (requests : List Request) (hw : s.ShownBy w)
    (hc : (plan.reading s).issued c) (h0 : ∀ r ∈ requests, r.properties.limit = some 0) :
    ∃ pages, (plan.pages s.records s.bindings requests c w).2 = .ok (pages, some c) ∧
      pages.flatten = [] := by
  induction requests generalizing w with
  | nil => exact ⟨[], rfl, rfl⟩
  | cons request requests ih =>
    obtain ⟨h0, h0s⟩ := List.forall_mem_cons.1 h0
    obtain ⟨w', hw', hpage⟩ := page_of_limit_zero hfit hw hc h0
    obtain ⟨pages, hpages, hnil⟩ := ih hw' h0s
    rw [pages_cons hpage, if_neg nofun, hpages]
    exact ⟨[] :: pages, rfl, hnil⟩

/-! ### A single execution -/

/-- A single execution fails, or it runs dry after all that is ahead of the beginning. -/
theorem page_unlimited (hfit : plan.Fits s) (hw : s.ShownBy w) (hp : p.Unlimited) :
    (∃ R, (plan.page s.records s.bindings p .start w).2 = .ok (R, .sourceExhausted, .done) ∧
      (plan.reading s).ahead .start = .ofList R) ∨
    ∃ e, (plan.page s.records s.bindings p .start w).2 = .error e ∧
      ∀ R, (plan.reading s).ahead .start ≠ .ofList R := by
  -- without limits the page cannot stop before the end, so what it hands out tells what is ahead
  obtain ⟨-, -, left, hle, -, hreaped⟩ := page_spec hfit hw false (p := p)
    (fun _ => ⟨hp.limit, hp.timeLimit⟩) (fun _ => hp.scanLimit)
    (plan.reading s).issued_start
  rw [Continuation.isStart, if_pos rfl, hp.skip] at hle
  have hleft : left = [] := List.length_eq_zero_iff.1 (Nat.le_zero.1 hle)
  rw [hleft] at hreaped
  cases h : (plan.page s.records s.bindings p .start w).2 with
  | error e =>
    rw [h] at hreaped
    obtain ⟨rows, hleads⟩ := hreaped
    refine .inr ⟨e, rfl, fun R hR => ?_⟩
    rw [Reaped, hR] at hleads
    obtain ⟨rest, -, hrest⟩ := hleads.of_ofList
    exact Prospect.ofList_ne_failure rest hrest.symm
  | ok result =>
    obtain ⟨R, r, t⟩ := result
    rw [h] at hreaped
    obtain ⟨-, hleads, done, reach⟩ := hreaped
    have hr : r = .sourceExhausted := by
      by_contra hr
      exact Bool.false_ne_true (reach (isLimit_of_ne hr)).1
    obtain rfl := done (by rw [hr]; rfl)
    rw [(plan.reading s).ahead_done] at hleads
    exact .inl ⟨R, by rw [hr], hleads.eq_ofList⟩

theorem ahead_of_page (hfit : plan.Fits s) (hw : s.ShownBy w)
    {result : List Record × StopReason × Continuation}
    (h : (plan.page s.records s.bindings .forward .start w).2 = .ok result) :
    (plan.reading s).ahead .start = .ofList result.1 := by
  rcases page_unlimited hfit hw .forward with ⟨R, hR, hahead⟩ | ⟨e, he, -⟩
  · rw [h] at hR
    cases hR
    exact hahead
  · rw [h] at he
    cases he

theorem page_unlimited_of_ahead (hfit : plan.Fits s) (hw : s.ShownBy w) (hp : p.Unlimited)
    {R : List Record} (hR : (plan.reading s).ahead .start = .ofList R) :
    (plan.page s.records s.bindings p .start w).2 = .ok (R, .sourceExhausted, .done) := by
  rcases page_unlimited hfit hw hp with ⟨R', hR', hahead⟩ | ⟨e, -, hne⟩
  · rw [hR', Prospect.ofList_injective (hR.symm.trans hahead)]
  · exact absurd hR (hne R)

theorem page_of_ahead (hfit : plan.Fits s) (hw : s.ShownBy w) {R : List Record}
    (hR : (plan.reading s).ahead .start = .ofList R) :
    (plan.page s.records s.bindings .forward .start w).2 = .ok (R, .sourceExhausted, .done) :=
  page_unlimited_of_ahead hfit hw .forward hR

/-! ### All pages -/

/-- Pages from the beginning leave out rows only on the first one, and there as many as are to be
left out or as the plan comes up with before it is stopped. -/
theorem handsOut_drop (hfit : plan.Fits s) (hw : s.ShownBy w) {R : List Record}
    (hR : (plan.reading s).ahead .start = .ofList R) {requests : List Request} {k n : Nat}
    (hk : ∀ r ∈ requests.head?, r.properties.skip = k ∧
      plan.supplied s.records s.bindings r.properties .start w = n)
    (h0 : ∀ r ∈ requests, r.properties.limit ≠ some 0) :
    HandsOut (R.drop (min k n)) (plan.scanCount * s.content.length < requests.length)
      (plan.pages s.records s.bindings requests .start w).2 := by
  have hcount := count_outlook_le s plan .start
  cases requests with
  | nil =>
    exact ⟨[], some .start, rfl, List.nil_prefix, nofun, fun h => absurd h (Nat.not_lt_zero _)⟩
  | cons request requests =>
    obtain ⟨hk, hn⟩ := hk request rfl
    obtain ⟨h0, h0s⟩ := List.forall_mem_cons.1 h0
    obtain ⟨w', rows, r, t, left, rest, h⟩ :=
      exists_turned hfit hw (plan.reading s).issued_start hR request.properties
    have hlen := h.length_eq h0
    rw [Continuation.isStart, if_pos rfl, hk, hn] at hlen
    rw [h.ahead_eq, ← hlen, List.drop_left]
    refine h.handsOut (fun hr hlt => ?_) fun hr =>
      handsOut_of_ahead hfit requests h.shown h.issued h.ahead_next (.inr ⟨h.count_lt hr h0, h0s⟩)
    have hp := h.count_lt hr h0
    rw [List.length_cons] at hlt
    exact ⟨h0s, by omega⟩

/-! ### A small store -/

def sampleRow (id size : Int64) : Record :=
  ⟨"shape", [.int id], [("rank", .scalar (.int id)), ("size", .scalar (.int size))]⟩

def sampleRows : List Record := [sampleRow 1 0, sampleRow 2 1, sampleRow 3 2, sampleRow 4 0]

def sampleRecords : RecordStore := ⟨"main", [], .standard⟩

def sampleContent : Store :=
  sampleRows.foldl (fun s r => s.set (sampleRecords.keyOf r.primaryKey) r.toWire) []

/-- Four rows of three sizes, as they are stored. -/
def sample : Snapshot := ⟨sampleRecords, [], sampleContent, by decide⟩

def sampleWorld : World := World.empty.setStore "main" sampleContent

/-- The rows of two sizes by rank. -/
def samplePlan : Plan :=
  .merge .union [("a", .filter (.scan .all false) (.field "size") [.int 0]),
    ("b", .filter (.scan .all false) (.field "size") [.int 1])] (.onKey (.field "rank")) false

theorem samplePlan_fits : samplePlan.Fits sample := by
  unfold Fits
  decide

theorem sampleScan_fits : (scan .all false).Fits sample := by
  unfold Fits
  decide

theorem sample_shownBy : sample.ShownBy sampleWorld := ⟨rfl, rfl⟩

theorem ahead_sampleScan :
    ((scan .all false).reading sample).ahead .start = .ofList sampleRows := by cbv

/-- The merge of the plan, whatever the hash of the plan. -/
def sampleMerge (h : UInt64) : Merge Record :=
  ⟨.union, (ComparisonKey.onKey (.field "rank")).ofRow [], false, h⟩

theorem combine_sample (h : UInt64) :
    (sampleMerge h).combine
      [.ofList [sampleRow 1 0, sampleRow 4 0], .ofList [sampleRow 2 1]] =
      .ofList [sampleRow 1 0, sampleRow 2 1, sampleRow 4 0] := by
  have first : (sampleMerge h).combine
      [.ofList [sampleRow 1 0, sampleRow 4 0], .ofList [sampleRow 2 1]] =
      .row (sampleRow 1 0) ((sampleMerge h).combine
        [.ofList [sampleRow 4 0], .ofList [sampleRow 2 1]]) :=
    Merge.combine_of_take (k := [.int 1]) (by cbv) (by cbv) (by cbv)
  have second : (sampleMerge h).combine
      [.ofList [sampleRow 4 0], .ofList [sampleRow 2 1]] =
      .row (sampleRow 2 1) ((sampleMerge h).combine
        [.ofList [sampleRow 4 0], .exhausted]) :=
    Merge.combine_of_take (k := [.int 2]) (by cbv) (by cbv) (by cbv)
  have third : (sampleMerge h).combine [.ofList [sampleRow 4 0], .exhausted] =
      .row (sampleRow 4 0) ((sampleMerge h).combine [.exhausted, .exhausted]) :=
    Merge.combine_of_take (k := [.int 4]) (by cbv) (by cbv) (by cbv)
  have last : (sampleMerge h).combine [.exhausted, .exhausted] = .exhausted :=
    Merge.combine_of_all_exhausted (by simp)
  rw [first, second, third, last]
  rfl

theorem keyIs_sampleRows : sampleRows.map (keyIs (.field "size") [.int 0]) =
    [true, false, false, true] ∧
    sampleRows.map (keyIs (.field "size") [.int 1]) = [false, true, false, false] := by
  constructor <;> cbv

theorem ahead_samplePlan : (samplePlan.reading sample).ahead .start =
    .ofList [sampleRow 1 0, sampleRow 2 1, sampleRow 4 0] := by
  have small : sampleRows.filter (keyIs (.field "size") [.int 0]) =
      [sampleRow 1 0, sampleRow 4 0] := by
    have h := keyIs_sampleRows.1
    simp only [sampleRows, List.map_cons, List.map_nil, List.cons.injEq] at h
    simp [sampleRows, List.filter, h]
  have large : sampleRows.filter (keyIs (.field "size") [.int 1]) = [sampleRow 2 1] := by
    have h := keyIs_sampleRows.2
    simp only [sampleRows, List.map_cons, List.map_nil, List.cons.injEq] at h
    simp [sampleRows, List.filter, h]
  rw [samplePlan, reading]
  show Merge.combine _ [(((scan .all false).reading sample).ahead .start).filter _,
    (((scan .all false).reading sample).ahead .start).filter _] = _
  rw [ahead_sampleScan, Prospect.filter_ofList, Prospect.filter_ofList, small, large]
  exact combine_sample _

/-- Time for two rows of a plan.  Where it is a merge of filters over scans, there is time for one
pair of the first scan and for two of the second. -/
def sampleClocks : TimeLimit :=
  .passing (some 2) (.passing none (.passing (some 1) .ample .ample) .ample)
    (.passing none (.passing none (.passing (some 2) .ample .ample) .ample) .ample)

/-- Requests with limits of all kinds, more of them than it takes. -/
def sampleRequests : List Request :=
  (List.replicate 3 [⟨ScanProperties.forward.withLimit 1, true⟩,
    ⟨ScanProperties.forward.withScanLimit 1, false⟩,
    ⟨ScanProperties.forward.withTimeLimit (some .elapsed), true⟩,
    ⟨ScanProperties.forward.withTimeLimit (some sampleClocks), false⟩]).flatten

/-! ### All rows -/

/-- However a plan is cut into pages, their rows are those of a single execution. -/
theorem flatten_pages (s : Snapshot) (plan : Plan) (hfit : plan.Fits s) (w : World)
    (hw : s.ShownBy w) (R : List Record)
    (hR : (plan.page s.records s.bindings .forward .start w).2 = .ok (R, .sourceExhausted, .done))
    (requests : List Request) (hskip : ∀ r ∈ requests, r.properties.skip = 0) :
    ∃ pages last, (plan.pages s.records s.bindings requests .start w).2 = .ok (pages, last) ∧
      pages.flatten <+: R ∧ (last = none → pages.flatten = R) ∧
      ((∀ r ∈ requests, r.properties.limit ≠ some 0) →
        plan.scanCount * s.content.length < requests.length → last = none) := by
  have hcount := count_outlook_le s plan .start
  obtain ⟨pages, last, hpages, hprefix, hall, hend⟩ := handsOut_of_ahead hfit requests hw
    (plan.reading s).issued_start (ahead_of_page hfit hw hR) (.inl hskip)
  exact ⟨pages, last, hpages, hprefix, hall, fun h0 hn => hend ⟨h0, by omega⟩⟩

theorem flatten_pages_sample :
    ∃ pages, (samplePlan.pages sampleRecords [] sampleRequests .start sampleWorld).2 =
        .ok (pages, none) ∧
      pages.flatten = [sampleRow 1 0, sampleRow 2 1, sampleRow 4 0] := by
  obtain ⟨pages, last, hpages, -, hall, hend⟩ :=
    flatten_pages sample samplePlan samplePlan_fits sampleWorld sample_shownBy _
      (page_of_ahead samplePlan_fits sample_shownBy ahead_samplePlan) sampleRequests (by decide)
  obtain rfl := hend (by decide) (by decide)
  exact ⟨pages, hpages, hall rfl⟩

/-! ### Progress -/

/-- What a page ends with, whatever is ahead. -/
theorem issued_and_passes_of_page (hfit : plan.Fits s) (hw : s.ShownBy w)
    (hc : (plan.reading s).issued c) {w' : World} {rows : List Record} {r : StopReason}
    {t : Continuation} (h : plan.page s.records s.bindings p c w = (w', .ok (rows, r, t))) :
    s.ShownBy w' ∧ (plan.reading s).issued t ∧
      (r.isLimit = true → p.limit ≠ some 0 → (plan.reading s).Passes c t) := by
  obtain ⟨hw', -, left, -, -, hreaped⟩ :=
    page_spec hfit hw true (p := p) nofun nofun hc
  rw [h] at hw' hreaped
  obtain ⟨issued, -, -, reach⟩ := hreaped
  exact ⟨hw', issued, fun hr h0 => (reach hr).2.2 (decide_eq_true h0)⟩

theorem Reached.issued (hfit : plan.Fits s) (hw : s.ShownBy w) {w' : World}
    (h : plan.Reached s.records s.bindings w w' c) :
    s.ShownBy w' ∧ (plan.reading s).issued c := by
  induction h with
  | start => exact ⟨hw, (plan.reading s).issued_start⟩
  | page _ hpage ih =>
    obtain ⟨hw', issued, -⟩ := issued_and_passes_of_page hfit ih.1 ih.2 hpage
    exact ⟨hw', issued⟩

/-- Each page that ends for a limit leaves less ahead, so page after page comes to an end. -/
theorem pages_end (hfit : plan.Fits s) (requests : List Request) (hw : s.ShownBy w)
    (hc : (plan.reading s).issued c) (h0 : ∀ r ∈ requests, r.properties.limit ≠ some 0)
    (hn : ((plan.reading s).outlook c).count < requests.length) :
    (∃ pages, (plan.pages s.records s.bindings requests c w).2 = .ok (pages, none)) ∨
      ∃ e, (plan.pages s.records s.bindings requests c w).2 = .error e := by
  induction requests generalizing c w with
  | nil => exact absurd hn (Nat.not_lt_zero _)
  | cons request requests ih =>
    rcases hpage : plan.page s.records s.bindings request.properties c w with ⟨w', result⟩
    cases result with
    | error e =>
      exact .inr ⟨e, pages_cons_error (by rw [hpage])⟩
    | ok result =>
      obtain ⟨rows, r, t⟩ := result
      obtain ⟨hw', issued, passes⟩ := issued_and_passes_of_page hfit hw hc hpage
      rw [pages_cons hpage]
      split
      · exact .inl ⟨_, rfl⟩
      · rename_i hr
        obtain ⟨h0, h0s⟩ := List.forall_mem_cons.1 h0
        have hp := (passes (isLimit_of_ne hr) h0).count_lt
        rw [List.length_cons] at hn
        rcases ih hw' issued h0s (by omega) with ⟨more, h⟩ | ⟨e, h⟩
        · rw [h]
          exact .inl ⟨_, rfl⟩
        · rw [h]
          exact .inr ⟨e, rfl⟩

/-- Whenever a page ends for a limit, no scan has moved back and one has passed a stored pair.  So
page after page comes to an end, and where a single execution does not fail no page does. -/
theorem pages_advance (s : Snapshot) (plan : Plan) (hfit : plan.Fits s) (w : World)
    (hw : s.ShownBy w) :
    (∀ w' c, plan.Reached s.records s.bindings w w' c → ∀ p : ScanProperties, p.limit ≠ some 0 →
      ∀ w'' rows r t, plan.page s.records s.bindings p c w' = (w'', .ok (rows, r, t)) →
        r.isLimit = true → ((plan.reading s).outlook c).Advances ((plan.reading s).outlook t)) ∧
    (∀ requests : List Request, (∀ r ∈ requests, r.properties.limit ≠ some 0) →
      plan.scanCount * s.content.length < requests.length →
        (∃ pages, (plan.pages s.records s.bindings requests .start w).2 = .ok (pages, none)) ∨
          ∃ e, (plan.pages s.records s.bindings requests .start w).2 = .error e) ∧
    ((∃ result, (plan.page s.records s.bindings .forward .start w).2 = .ok result) →
      ∀ requests : List Request, (∀ r ∈ requests, r.properties.limit ≠ some 0) →
        ∃ pages last, (plan.pages s.records s.bindings requests .start w).2 = .ok (pages, last) ∧
          (plan.scanCount * s.content.length < requests.length → last = none)) := by
  refine ⟨fun w' c hreached p h0 w'' rows r t hpage hr => ?_, fun requests h0 hn => ?_,
    fun ⟨⟨R, r, t⟩, hR⟩ requests h0 => ?_⟩
  · obtain ⟨hw', hc⟩ := hreached.issued hfit hw
    exact (issued_and_passes_of_page hfit hw' hc hpage).2.2 hr h0
  · have hcount := count_outlook_le s plan .start
    exact pages_end hfit requests hw (plan.reading s).issued_start h0 (by omega)
  · obtain ⟨pages, last, hpages, -, -, hend⟩ := handsOut_drop hfit hw (ahead_of_page hfit hw hR)
      (k := (requests.head?.map (·.properties.skip)).getD 0)
      (n := (requests.head?.map (plan.supplied s.records s.bindings ·.properties .start w)).getD 0)
      (fun r hr => by rw [show requests.head? = some r from hr]; exact ⟨rfl, rfl⟩) h0
    exact ⟨pages, last, hpages, hend⟩

theorem pages_advance_sample :
    (∃ t, ((scan .all false).page sampleRecords []
        (ScanProperties.forward.withTimeLimit (some sampleClocks)) .start sampleWorld).2 =
          .ok ([sampleRow 1 0, sampleRow 2 1], .timeLimit, t) ∧
      (((scan .all false).reading sample).outlook .start).Advances
        (((scan .all false).reading sample).outlook t)) ∧
    ∃ pages, (samplePlan.pages sampleRecords [] sampleRequests .start sampleWorld).2 =
      .ok (pages, none) := by
  constructor
  · obtain ⟨hadvance, -⟩ := pages_advance sample (scan .all false) sampleScan_fits sampleWorld
      sample_shownBy
    have hpage : ((scan .all false).page sampleRecords []
        (ScanProperties.forward.withTimeLimit (some sampleClocks)) .start sampleWorld).2 =
          .ok ([sampleRow 1 0, sampleRow 2 1], .timeLimit,
            (KeyPosition.mk (sampleRecords.keyOf [.int 2])).toContinuation) := by cbv
    exact ⟨_, hpage, hadvance _ _ .start _ (by decide) _ _ _ _ (Prod.ext rfl hpage) rfl⟩
  · obtain ⟨-, -, hpages⟩ :=
      pages_advance sample samplePlan samplePlan_fits sampleWorld sample_shownBy
    obtain ⟨pages, last, hpages, hend⟩ :=
      hpages ⟨_, page_of_ahead samplePlan_fits sample_shownBy ahead_samplePlan⟩ sampleRequests
        (by decide)
    obtain rfl := hend (by decide)
    exact ⟨pages, hpages⟩

/-- A page of no rows gets no further, and no page of a scan comes to the end of the source where a
stored pair is not the one of a record. -/
theorem pages_without_end :
    ((scan .all false).page sampleRecords [] { ScanProperties.forward with limit := some 0 } .start
      sampleWorld).2 = .ok ([], .returnLimit, .start) ∧
    ∀ n pages, ((scan .all false).pages sampleRecords [] (List.replicate n ⟨.forward, false⟩) .start
      (World.empty.setStore "main" [([1], [])])).2 ≠ .ok (pages, none) := by
  refine ⟨by cbv, fun n pages h => ?_⟩
  have hpage : ((scan .all false).page sampleRecords [] .forward .start
      (World.empty.setStore "main" [([1], [])])).2 =
        .error (.ofCause (.store (.serialization .endOfInput))) := by cbv
  cases n with
  | zero => cases h
  | succ n =>
    rw [List.replicate_succ, pages_cons_error hpage] at h
    cases h

/-- Where every page repeats the request of the first, rows are left out on the first page only: as
many as the plan comes up with there, and all that were to be if the page hands out a row or runs
dry.  Each page is cut by clocks of its own. -/
theorem flatten_pages_skip (s : Snapshot) (plan : Plan) (hfit : plan.Fits s) (w : World)
    (hw : s.ShownBy w) (R : List Record)
    (hR : (plan.page s.records s.bindings .forward .start w).2 = .ok (R, .sourceExhausted, .done))
    (first : Request) (later : List Request)
    (hsame : ∀ r ∈ later, r.properties.Repeats first.properties) :
    let p := first.properties
    let rest := R.drop (min p.skip (plan.supplied s.records s.bindings p .start w))
    (∃ pages last,
      (plan.pages s.records s.bindings (first :: later) .start w).2 = .ok (pages, last) ∧
        pages.flatten <+: rest ∧ (last = none → pages.flatten = rest) ∧
        (p.limit ≠ some 0 → plan.scanCount * s.content.length ≤ later.length → last = none)) ∧
    (∀ rows r t, (plan.page s.records s.bindings p .start w).2 = .ok (rows, r, t) →
      rows ≠ [] ∨ r = .sourceExhausted → rest = R.drop p.skip) := by
  intro p rest
  have hahead : (plan.reading s).ahead .start = .ofList R := ahead_of_page hfit hw hR
  have limit_eq : ∀ r ∈ first :: later, r.properties.limit = p.limit :=
    List.forall_mem_cons.2 ⟨rfl, fun r hr => (hsame r hr).limit⟩
  by_cases h0 : p.limit = some 0
  · obtain ⟨pages, hpages, hnil⟩ := pages_of_limit_zero hfit (first :: later) hw
      (plan.reading s).issued_start fun r hr => (limit_eq r hr).trans h0
    obtain ⟨w', -, hpage⟩ := page_of_limit_zero hfit hw (plan.reading s).issued_start h0
    refine ⟨⟨pages, some .start, hpages, ?_, nofun, fun h => absurd h0 h⟩,
      fun rows r t h hfirst => ?_⟩
    · rw [hnil]
      exact List.nil_prefix
    · rw [hpage] at h
      cases h
      rcases hfirst with h | h
      · exact absurd rfl h
      · cases h
  · have hhead : ∀ r ∈ (first :: later).head?, r.properties.skip = p.skip ∧
        plan.supplied s.records s.bindings r.properties .start w =
          plan.supplied s.records s.bindings p .start w := by
      intro r hr
      cases hr
      exact ⟨rfl, rfl⟩
    have some_rows : ∀ r ∈ first :: later, r.properties.limit ≠ some 0 := fun r hr => by
      rw [limit_eq r hr]
      exact h0
    obtain ⟨pages, last, hpages, hprefix, hall, hend⟩ :=
      handsOut_drop hfit hw hahead hhead some_rows
    refine ⟨⟨pages, last, hpages, hprefix, hall, fun _ hn => hend (Nat.lt_succ_of_le hn)⟩,
      fun rows r t hpage hfirst => ?_⟩
    obtain ⟨w', rows', r', t', left, rest', h⟩ :=
      exists_turned hfit hw (plan.reading s).issued_start hahead p
    rw [h.page] at hpage
    cases hpage
    have hlen := h.length_eq h0
    rw [Continuation.isStart, if_pos rfl] at hlen
    show R.drop (min p.skip _) = _
    by_cases hrows : rows = []
    · have hr := hfirst.resolve_left (fun hne => hne hrows)
      have hrest := h.dry (by rw [hr]; rfl)
      have hR' : R = left := by rw [h.ahead_eq, hrows, hrest, List.append_nil, List.append_nil]
      rw [hR', ← hlen, List.drop_length, List.drop_of_length_le (by omega)]
    · have hlt := h.skip_lt hrows
      rw [Continuation.isStart, if_pos rfl] at hlt
      rw [Nat.min_eq_left (by omega)]

/-- Three rows to be left out and two records to be read. -/
def sampleSkip : ScanProperties := (ScanProperties.forward.withSkip 3).withScanLimit 2

/-- The first page has time for all that it is to read, and each of the others for one row. -/
theorem flatten_pages_skip_sample :
    let first : Request := ⟨sampleSkip.withTimeLimit (some .ample), true⟩
    let later : List Request :=
      List.replicate 4 ⟨sampleSkip.withTimeLimit (some (.passing (some 1) .ample .ample)), true⟩
    ∃ pages, ((scan .all false).pages sampleRecords [] (first :: later) .start sampleWorld).2 =
        .ok (pages, none) ∧
      pages.flatten = [sampleRow 3 2, sampleRow 4 0] := by
  intro first later
  obtain ⟨⟨pages, last, hpages, -, hall, hend⟩, -⟩ :=
    flatten_pages_skip sample (scan .all false) sampleScan_fits sampleWorld sample_shownBy _
      (page_of_ahead sampleScan_fits sample_shownBy ahead_sampleScan) first later
      fun r hr => by rw [List.eq_of_mem_replicate hr]; exact ⟨rfl, rfl, rfl, rfl, rfl⟩
  obtain rfl := hend (by decide) (by decide)
  have hsupplied :
      (scan .all false).supplied sampleRecords [] first.properties .start sampleWorld = 2 := by cbv
  refine ⟨pages, hpages, ?_⟩
  rw [hall rfl]
  show sampleRows.drop (min 3 ((scan .all false).supplied sampleRecords [] first.properties .start
    sampleWorld)) = _
  rw [hsupplied]
  rfl

/-- A page that is stopped before it has left out all rows is the last to leave out any. -/
theorem flatten_pages_ne_drop :
    ((scan .all false).page sampleRecords [] .forward .start sampleWorld).2 =
      .ok (sampleRows, .sourceExhausted, .done) ∧
    ∃ pages, ((scan .all false).pages sampleRecords [] (List.replicate 2 ⟨sampleSkip, false⟩) .start
        sampleWorld).2 = .ok (pages, none) ∧
      pages.flatten ≠ sampleRows.drop sampleSkip.skip := by
  refine ⟨by cbv, [[], [sampleRow 3 2, sampleRow 4 0]], by cbv, fun h => ?_⟩
  have := congrArg List.length h
  cases this

end Plan

end ResumableQuery
