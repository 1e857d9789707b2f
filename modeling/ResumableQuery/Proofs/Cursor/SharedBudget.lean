import ResumableQuery.Proofs.Cursor.Confined

/-!
# Scans that share a budget

Cursors that are read at the same time have their accesses to the world in any order
(`interleave`).  Calls that are made one after the other are one such order
(`exists_interleave_calls`).

Where scans of stores that stay as they are share a new budget, each pair that one of them hands
out was taken from the budget, and all of them together hand out hardly more pairs than the budget
holds (`shared_budget`).  A scan takes its first pair also from a budget that is spent, so only
first pairs go beyond the limit, and the very first of all does so only if the limit is zero
(`Shares`).
-/

namespace ResumableQuery.Cursor

/-! ### Cursors that are read at the same time -/

/-- A cursor that is read, and the rows that it has handed out. -/
structure Reader (α : Type) : Type where
  handed : List (α × Continuation)
  cursor : Cursor α

namespace Reader

/-- A reader that comes to a cursor.  A row that is there is handed out. -/
def comesTo (handed : List (α × Continuation)) : Cursor α → Reader α
  | row v t rest => ⟨handed ++ [(v, t)], rest ()⟩
  | c => ⟨handed, c⟩

/-- The world and the reader once it has come to a cursor that may change the world at once. -/
def settle (handed : List (α × Continuation)) (w : World) : Cursor α → World × Reader α
  | commit w' c => (w', comesTo handed c)
  | c => (w, comesTo handed c)

/-- One access to the world.  What a cursor changes after a look at the world, and the row that it
hands out then, is part of the access; other cursors have theirs before or after. -/
def access (r : Reader α) (w : World) : World × Reader α :=
  match r.cursor with
  | consult k => settle r.handed w (k w)
  | pause wait rest => settle r.handed (w.await wait) (rest ())
  | c => settle r.handed w c

/-- The reader after the answer to a call. -/
def answered (r : Reader α) : Reply α → Reader α
  | .row v t rest => ⟨r.handed ++ [(v, t)], rest⟩
  | .stop reason t => ⟨r.handed, stop reason t⟩
  | .fail e => ⟨r.handed, fail e⟩

end Reader

/-- The reader of a number has an access to the world. -/
def turn (s : World × List (Reader α)) (i : Nat) : World × List (Reader α) :=
  match s.2[i]? with
  | some r => ((r.access s.1).1, s.2.set i (r.access s.1).2)
  | none => s

/-- Readers have accesses to the world in the order of their numbers in a schedule. -/
def interleave (schedule : List Nat) (s : World × List (Reader α)) : World × List (Reader α) :=
  schedule.foldl turn s

/-! ### Calls as accesses -/

/-- Accesses of one reader, one after the other. -/
def accesses (n : Nat) (w : World) (r : Reader α) : World × Reader α :=
  (fun s => s.2.access s.1)^[n] (w, r)

theorem exists_settle_next (handed : List (α × Continuation)) (c : Cursor α) (w : World) :
    ∃ n, (fun s => s.2.access s.1)^[n] (Reader.settle handed w c) =
      ((c.next w).1, (Reader.mk handed c).answered (c.next w).2) := by
  induction c generalizing w with
  | row | stop | fail => exact ⟨0, rfl⟩
  | consult k ih =>
    obtain ⟨n, hn⟩ := ih w w
    exact ⟨n + 1, hn⟩
  | commit w' c ih =>
    obtain ⟨n, hn⟩ := ih w'
    cases c with
    | commit => exact ⟨n + 1, hn⟩
    | row | stop | fail | consult | pause => exact ⟨n, hn⟩
  | pause wait rest ih =>
    obtain ⟨n, hn⟩ := ih () (w.await wait)
    exact ⟨n + 1, hn⟩

/-- A call for the next row is some accesses of the reader. -/
theorem exists_accesses_next (r : Reader α) (w : World) :
    ∃ n, accesses n w r = ((r.cursor.next w).1, r.answered (r.cursor.next w).2) := by
  obtain ⟨handed, c⟩ := r
  cases c with
  | row | stop | fail => exact ⟨1, rfl⟩
  | consult k =>
    obtain ⟨n, hn⟩ := exists_settle_next handed (k w) w
    exact ⟨n + 1, hn⟩
  | commit w' c =>
    obtain ⟨n, hn⟩ := exists_settle_next handed (commit w' c) w
    exact ⟨n + 1, hn⟩
  | pause wait rest =>
    obtain ⟨n, hn⟩ := exists_settle_next handed (rest ()) (w.await wait)
    exact ⟨n + 1, hn⟩

theorem interleave_replicate {i : Nat} {r : Reader α} {w : World} {rs : List (Reader α)}
    (h : rs[i]? = some r) (n : Nat) :
    interleave (List.replicate n i) (w, rs) =
      ((accesses n w r).1, rs.set i (accesses n w r).2) := by
  induction n generalizing w r rs with
  | zero =>
    obtain ⟨hi, rfl⟩ := List.getElem?_eq_some_iff.1 h
    exact congrArg (Prod.mk w) (List.set_getElem_self hi).symm
  | succ n ih =>
    have hi := (List.getElem?_eq_some_iff.1 h).1
    have hturn : turn (w, rs) i = ((r.access w).1, rs.set i (r.access w).2) := by
      simp only [turn, h]
    rw [interleave, List.replicate_succ, List.foldl_cons, hturn, ← interleave,
      ih (List.getElem?_set_self hi), List.set_set]
    rfl

/-- The reader of a number is asked for its next row. -/
def call (s : World × List (Reader α)) (i : Nat) : World × List (Reader α) :=
  match s.2[i]? with
  | some r => ((r.cursor.next s.1).1, s.2.set i (r.answered (r.cursor.next s.1).2))
  | none => s

/-- Calls that are made one after the other are a schedule, whichever reader each is for. -/
theorem exists_interleave_calls (calls : List Nat) (s : World × List (Reader α)) :
    ∃ schedule, interleave schedule s = calls.foldl call s := by
  induction calls generalizing s with
  | nil => exact ⟨[], rfl⟩
  | cons i calls ih =>
    obtain ⟨schedule, hschedule⟩ := ih (call s i)
    obtain ⟨w, rs⟩ := s
    rw [List.foldl_cons, ← hschedule]
    cases hr : rs[i]? with
    | none => exact ⟨schedule, by simp only [call, hr]⟩
    | some r =>
      obtain ⟨n, hn⟩ := exists_accesses_next r w
      refine ⟨List.replicate n i ++ schedule, ?_⟩
      rw [interleave, List.foldl_append, ← interleave, ← interleave, interleave_replicate hr, hn]
      simp only [call, hr]

namespace KeyScan

variable {s : KeyScan} {content : Store} {handed : List ((Bytes × Bytes) × Continuation)}
  {left : List (Bytes × Bytes)} {w : World} {limit : Nat}

/-! ### One scan -/

/-- The scan once it has a pair to hand out. -/
def paying (s : KeyScan) (n : Nat) (st : State) (e : Bytes × Bytes)
    (buffer : List (Bytes × Bytes)) : Cursor (Bytes × Bytes) :=
  perform (s.charge st.fresh) fun allowed =>
    if allowed then
      row e (KeyPosition.mk e.1).toContinuation fun _ =>
        s.pairs n ⟨some e.1, buffer, st.sourceDone, (KeyPosition.mk e.1).toContinuation, false⟩
    else stop .scanLimit st.token

/-- The scan once it has asked for a batch. -/
def fetched (s : KeyScan) (n : Nat) : Except StoreError State → Cursor (Bytes × Bytes)
  | .error e => fail (.ofCause (.store e))
  | .ok st =>
    match st.buffer with
    | [] => exhausted
    | e :: buffer => s.paying n st e buffer

theorem pairs_succ (n : Nat) (st : State) :
    s.pairs (n + 1) st = perform (s.fetch st) (s.fetched n) := by
  rw [pairs]
  refine congrArg _ (funext fun x => ?_)
  rcases x with e | ⟨lastKey, _ | ⟨⟨k, v⟩, buffer⟩, done, token, fresh⟩ <;> rfl

/-- What a scan has read, in a state from which it has some pairs left. -/
structure State.Has (s : KeyScan) (content : Store)
    (handed : List ((Bytes × Bytes) × Continuation)) (left : List (Bytes × Bytes)) (st : State) :
    Prop where
  pending : s.pending content st.lastKey = left
  buffer : st.buffer <+: left
  sourceDone : st.sourceDone = true → st.buffer = left
  fresh : st.fresh = handed.isEmpty
  token : st.fresh = false → handed.getLast?.map Prod.snd = some st.token

/-- Where a scan is between two accesses that has handed out some pairs and has others left. -/
inductive Stage (s : KeyScan) (content : Store) (handed : List ((Bytes × Bytes) × Continuation))
    (left : List (Bytes × Bytes)) : Cursor (Bytes × Bytes) → Prop
  | asking {n st} (has : st.Has s content handed left) (enough : left.length < n) :
      Stage s content handed left (s.pairs n st)
  | paying {n st e buffer} (has : st.Has s content handed left) (enough : left.length ≤ n)
      (buffer_eq : st.buffer = e :: buffer) : Stage s content handed left (s.paying n st e buffer)
  | spent {t} (last : handed.getLast?.map Prod.snd = some t) (more : left ≠ []) :
      Stage s content handed left (.stop .scanLimit t)
  | dry (none_left : left = []) : Stage s content handed left exhausted
  | failed {e} : Stage s content handed left (.fail e)

theorem charge_eq {fresh : Bool} (hlimit : (w.budget s.budget).limit = some limit) :
    s.charge fresh w =
      if fresh = true ∨ (w.budget s.budget).scanned < limit then
        (w.setBudget s.budget ⟨some limit, (w.budget s.budget).scanned + 1⟩, true)
      else (w, false) := by
  unfold charge
  cases fresh with
  | true => simp only [Budget.scanFirst, hlimit, if_true, true_or]
  | false =>
    simp only [Budget.tryScan, hlimit, Bool.false_eq_true, if_false, false_or]
    split <;> simp_all

/-- Reading a batch leaves the pairs that are left as they are. -/
theorem State.Has.fetch {st st' : State} (h : st.Has s content handed left) (hb : 1 ≤ s.batch)
    (hw : w.store s.store = content) (hfetch : (s.fetch st w).2 = .ok st') :
    st'.Has s content handed left ∧ (st'.buffer = [] → left = []) := by
  obtain ⟨pending, hbuffer, hdone, fresh, token⟩ := h
  subst pending
  obtain ⟨buffer, done, rfl, hbuffer', hdone', hdry⟩ := fetch_buffer hb hw hbuffer hdone hfetch
  exact ⟨⟨rfl, hbuffer', hdone', fresh, token⟩, hdry⟩

/-- Handing out the first pair of the buffer leaves the others. -/
theorem State.Has.pair {st : State} {e : Bytes × Bytes} {buffer : List (Bytes × Bytes)}
    (h : st.Has s content handed left) (hs : content.Sorted) (hbuffer : st.buffer = e :: buffer) :
    ∃ left', left = e :: left' ∧
      (State.mk (some e.1) buffer st.sourceDone (KeyPosition.mk e.1).toContinuation false).Has
        s content (handed ++ [(e, (KeyPosition.mk e.1).toContinuation)]) left' := by
  obtain ⟨more, hmore⟩ := h.buffer
  rw [hbuffer] at hmore
  refine ⟨buffer ++ more, hmore.symm, ?_⟩
  refine ⟨s.pending_some hs (h.pending.trans hmore.symm), List.prefix_append _ _, fun hd => ?_,
    by simp, fun _ => by simp⟩
  have hall := h.sourceDone hd
  rw [hbuffer, ← hmore] at hall
  exact (List.cons.inj hall).2

/-- What an access of a scan does to its budget: nothing, or it takes a pair from it, which it hands
out. -/
def Pays (id : BudgetId) (limit : Nat) (w : World) (handed : List ((Bytes × Bytes) × Continuation))
    (x : World × Reader (Bytes × Bytes)) : Prop :=
  x.2.handed = handed ∧ x.1.budgets = w.budgets ∨
    (∃ e, x.2.handed = handed ++ [(e, (KeyPosition.mk e.1).toContinuation)]) ∧
      x.1.budgets = w.budgets.set id ⟨some limit, (w.budget id).scanned + 1⟩ ∧
      (handed = [] ∨ (w.budget id).scanned < limit)

/-- What comes of an access of a scan that has handed out some pairs and has others left. -/
structure Advances (s : KeyScan) (content : Store) (limit : Nat) (w : World)
    (handed : List ((Bytes × Bytes) × Continuation)) (left : List (Bytes × Bytes))
    (x : World × Reader (Bytes × Bytes)) : Prop where
  stage : ∃ left', handed.map Prod.fst ++ left = x.2.handed.map Prod.fst ++ left' ∧
    s.Stage content x.2.handed left' x.2.cursor
  pays : Pays s.budget limit w handed x
  stores : x.1.stores = w.stores

theorem State.Has.asks {st : State} (h : st.Has s content handed left) (hb : 1 ≤ s.batch)
    (hw : w.store s.store = content) {n : Nat} (enough : left.length ≤ n) :
    s.Advances content limit w handed left
      ((s.fetch st w).1, .comesTo handed (s.fetched n (s.fetch st w).2)) := by
  have hstores := (sameContent_fetch (s := s) st w).stores
  have hbudgets := budgets_fetch (s := s) st w
  cases hfetch : (s.fetch st w).2 with
  | error e => exact ⟨⟨left, rfl, .failed⟩, .inl ⟨rfl, hbudgets⟩, hstores⟩
  | ok st' =>
    obtain ⟨has, hdry⟩ := h.fetch hb hw hfetch
    rw [fetched]
    cases hbuffer : st'.buffer with
    | nil => exact ⟨⟨left, rfl, .dry (hdry hbuffer)⟩, .inl ⟨rfl, hbudgets⟩, hstores⟩
    | cons e buffer =>
      exact ⟨⟨left, rfl, .paying has enough hbuffer⟩, .inl ⟨rfl, hbudgets⟩, hstores⟩

theorem State.Has.pays {st : State} (h : st.Has s content handed left) (hs : content.Sorted)
    (hlimit : (w.budget s.budget).limit = some limit) {n : Nat} (enough : left.length ≤ n)
    {e : Bytes × Bytes} {buffer : List (Bytes × Bytes)} (hbuffer : st.buffer = e :: buffer) :
    s.Advances content limit w handed left
      ((Reader.mk handed (s.paying n st e buffer)).access w) := by
  obtain ⟨left', rfl, has⟩ := h.pair hs hbuffer
  have haccess : (Reader.mk handed (s.paying n st e buffer)).access w =
      ((s.charge st.fresh w).1, Reader.comesTo handed (if (s.charge st.fresh w).2 = true then
        row e (KeyPosition.mk e.1).toContinuation fun _ =>
          s.pairs n ⟨some e.1, buffer, st.sourceDone, (KeyPosition.mk e.1).toContinuation, false⟩
      else stop .scanLimit st.token)) := rfl
  rw [haccess, charge_eq hlimit]
  by_cases hpaid : st.fresh = true ∨ (w.budget s.budget).scanned < limit
  · rw [if_pos hpaid, if_pos rfl]
    refine ⟨⟨left', ?_, .asking has enough⟩, .inr ⟨⟨e, rfl⟩, rfl, ?_⟩, rfl⟩
    · rw [Reader.comesTo, List.map_append, List.append_assoc]
      rfl
    · rwa [h.fresh, List.isEmpty_iff] at hpaid
  · rw [if_neg hpaid, if_neg Bool.false_ne_true]
    have hmoved : st.fresh = false := Bool.eq_false_iff.2 fun hfresh => hpaid (.inl hfresh)
    exact ⟨⟨_, rfl, .spent (h.token hmoved) (List.cons_ne_nil _ _)⟩, .inl ⟨rfl, rfl⟩, rfl⟩

theorem Stage.advances {c : Cursor (Bytes × Bytes)} (h : s.Stage content handed left c)
    (hb : 1 ≤ s.batch) (hs : content.Sorted) (hw : w.store s.store = content)
    (hlimit : (w.budget s.budget).limit = some limit) :
    s.Advances content limit w handed left ((Reader.mk handed c).access w) := by
  cases h with
  | @asking n st has enough =>
    cases n with
    | zero => exact absurd enough (Nat.not_lt_zero _)
    | succ n =>
      rw [pairs_succ]
      exact has.asks hb hw (Nat.le_of_lt_succ enough)
  | paying has enough hbuffer => exact has.pays hs hlimit enough hbuffer
  | spent last more => exact ⟨⟨left, rfl, .spent last more⟩, .inl ⟨rfl, rfl⟩, rfl⟩
  | dry none_left => exact ⟨⟨left, rfl, .dry none_left⟩, .inl ⟨rfl, rfl⟩, rfl⟩
  | failed => exact ⟨⟨left, rfl, .failed⟩, .inl ⟨rfl, rfl⟩, rfl⟩

/-! ### Scans of one budget -/

/-- What has come of a scan that was opened at a continuation and then read: the pairs that it has
handed out are the first of those that were ahead, each at the continuation of its key. -/
structure Reports (s : KeyScan) (content : Store) (c : Continuation) (r : Reader (Bytes × Bytes))
    (left : List (Bytes × Bytes)) : Prop where
  pairs : s.pendingAt content c = r.handed.map Prod.fst ++ left
  tokens : ∀ x ∈ r.handed, x.2 = (KeyPosition.mk x.1.1).toContinuation
  /-- If it stops for its budget, then at the last of them, and others are left. -/
  spent : ∀ t, r.cursor = .stop .scanLimit t →
    r.handed.getLast?.map Prod.snd = some t ∧ left ≠ []
  /-- If it stops for another reason, then because none is left. -/
  dry : ∀ reason t, r.cursor = .stop reason t → reason ≠ .scanLimit →
    reason = .sourceExhausted ∧ left = []

/-- A scan that was opened at a continuation, between two accesses. -/
structure Underway (s : KeyScan) (content : Store) (c : Continuation) (r : Reader (Bytes × Bytes))
    (left : List (Bytes × Bytes)) : Prop where
  pairs : s.pendingAt content c = r.handed.map Prod.fst ++ left
  tokens : ∀ x ∈ r.handed, x.2 = (KeyPosition.mk x.1.1).toContinuation
  stage : ({ s with batch := max 1 s.batch } : KeyScan).Stage content r.handed left r.cursor

theorem Stage.of_stop {c : Cursor (Bytes × Bytes)} (h : s.Stage content handed left c)
    {reason : StopReason} {t : Continuation} (hc : c = .stop reason t) :
    reason = .scanLimit ∧ handed.getLast?.map Prod.snd = some t ∧ left ≠ [] ∨
      reason = .sourceExhausted ∧ left = [] := by
  cases h with
  | @asking n st has enough =>
    cases n with
    | zero => exact absurd enough (Nat.not_lt_zero _)
    | succ n =>
      rw [pairs_succ] at hc
      cases hc
  | paying => cases hc
  | spent last more =>
    cases hc
    exact .inl ⟨rfl, last, more⟩
  | dry none_left =>
    cases hc
    exact .inr ⟨rfl, none_left⟩
  | failed => cases hc

theorem Underway.reports {c : Continuation} {r : Reader (Bytes × Bytes)}
    (h : s.Underway content c r left) : s.Reports content c r left := by
  refine ⟨h.pairs, h.tokens, fun t hstop => ?_, fun reason t hstop hreason => ?_⟩
  · rcases h.stage.of_stop hstop with ⟨-, h⟩ | ⟨h, -⟩
    · exact h
    · cases h
  · rcases h.stage.of_stop hstop with ⟨h, -⟩ | h
    · exact absurd h hreason
    · exact h

/-- A scan that was just opened has all that is ahead left. -/
theorem underway_new {c : Continuation} {cursor : Cursor (Bytes × Bytes)}
    (hw : w.store s.store = content) (hopen : s.openAt w c = .ok cursor) :
    ∃ left, s.Underway content c ⟨[], cursor⟩ left := by
  refine ⟨s.pendingAt content c, rfl, fun _ h => absurd h List.not_mem_nil, ?_⟩
  by_cases hdone : c = .done
  · subst hdone
    cases hopen
    exact .dry rfl
  · rw [openAt.eq_def] at hopen
    split at hopen
    · exact absurd rfl hdone
    · split at hopen
      · cases hopen
      · rename_i p hposition
        cases hopen
        rw [pendingAt_of_position hdone hposition]
        refine .asking ⟨rfl, List.nil_prefix, fun h => absurd h Bool.false_ne_true, rfl,
          fun h => absurd h.symm Bool.false_ne_true⟩ ?_
        have hlength := s.length_pending_le content (p.map (·.lastKey))
        rw [mostPairs, hw]
        have : 0 < UInt64.size := by decide
        omega

/-- An access of a scan takes it from where it is to where it is then. -/
theorem Underway.advances {c : Continuation} {r : Reader (Bytes × Bytes)}
    (h : s.Underway content c r left) (hs : content.Sorted) (hw : w.store s.store = content)
    (hlimit : (w.budget s.budget).limit = some limit) :
    (∃ left', s.Underway content c (r.access w).2 left') ∧
      Pays s.budget limit w r.handed (r.access w) ∧ (r.access w).1.stores = w.stores := by
  obtain ⟨⟨left', hsame, stage⟩, pays, stores⟩ :=
    h.stage.advances (Nat.le_max_left _ _) hs hw hlimit
  refine ⟨⟨left', h.pairs.trans hsame, fun x hx => ?_, stage⟩, pays, stores⟩
  rcases pays with ⟨hsame, -⟩ | ⟨⟨e, he⟩, -⟩
  · exact h.tokens x (hsame ▸ hx)
  · rw [he] at hx
    rcases List.mem_append.1 hx with hx | hx
    · exact h.tokens x hx
    · rw [List.mem_singleton.1 hx]

/-! ### All scans together -/

/-- Where related lists have a member, it is related to one of the other list, and it can be
replaced by another one that is. -/
theorem exists_of_forall₂ {R : α → β → Prop} {xs : List α} {ys : List β}
    (h : List.Forall₂ R xs ys) {i : Nat} {y : β} (hy : ys[i]? = some y) :
    ∃ x ∈ xs, R x y ∧ ∀ y', R x y' → List.Forall₂ R xs (ys.set i y') := by
  induction h generalizing i with
  | nil => cases hy
  | @cons x z xs ys hxz hrest ih =>
    cases i with
    | zero =>
      cases hy
      exact ⟨x, List.mem_cons_self, hxz, fun y' hy' => .cons hy' hrest⟩
    | succ i =>
      obtain ⟨x', hx', hR, hset⟩ := ih hy
      exact ⟨x', List.mem_cons_of_mem _ hx', hR, fun y' hy' => .cons hxz (hset y' hy')⟩

theorem exists_set_eq {l : List α} {i : Nat} {x : α} (h : l[i]? = some x) :
    ∃ a b, l = a ++ x :: b ∧ ∀ y, l.set i y = a ++ y :: b := by
  induction l generalizing i with
  | nil => cases h
  | cons z l ih =>
    cases i with
    | zero =>
      cases h
      exact ⟨[], l, rfl, fun _ => rfl⟩
    | succ i =>
      obtain ⟨a, b, rfl, hset⟩ := ih h
      exact ⟨z :: a, b, rfl, fun y => congrArg (z :: ·) (hset y)⟩

/-- How many pairs readers have handed out. -/
def handedOut (readers : List (Reader (Bytes × Bytes))) : Nat :=
  (readers.map fun r => r.handed.length).sum

/-- How many readers have handed out a pair. -/
def moved (readers : List (Reader (Bytes × Bytes))) : Nat :=
  readers.countP fun r => !r.handed.isEmpty

/-- Scans share a budget between two accesses.  Each pair was taken from it, and beyond its limit
only the first pair of a reader was. -/
structure Shares (w₀ : World) (id : BudgetId) (limit : Nat) (scans : List (KeyScan × Continuation))
    (x : World × List (Reader (Bytes × Bytes))) : Prop where
  stores : x.1.stores = w₀.stores
  made : id < x.1.budgets.length
  limited : (x.1.budget id).limit = some limit
  scanned : (x.1.budget id).scanned = handedOut x.2
  bound : handedOut x.2 = 0 ∨ handedOut x.2 + 1 ≤ max limit 1 + moved x.2
  readers : List.Forall₂
    (fun y r => ∃ left, y.1.Underway (w₀.store y.1.store) y.2 r left) scans x.2

variable {w₀ : World} {id : BudgetId} {scans : List (KeyScan × Continuation)}
  {x : World × List (Reader (Bytes × Bytes))}

/-- An access without a pair leaves the counts as they are. -/
theorem counts_of_none {a b : List (Reader (Bytes × Bytes))} {r r' : Reader (Bytes × Bytes)}
    (h : r'.handed = r.handed) :
    handedOut (a ++ r' :: b) = handedOut (a ++ r :: b) ∧
      moved (a ++ r' :: b) = moved (a ++ r :: b) := by
  simp only [handedOut, moved, List.map_append, List.map_cons, List.countP_append,
    List.countP_cons, h, and_self]

/-- What one more pair of a reader does to the counts. -/
theorem counts_of_pair {a b : List (Reader (Bytes × Bytes))} {r r' : Reader (Bytes × Bytes)}
    {e : (Bytes × Bytes) × Continuation} (h : r'.handed = r.handed ++ [e]) :
    handedOut (a ++ r' :: b) = handedOut (a ++ r :: b) + 1 ∧
      (r.handed = [] → moved (a ++ r' :: b) = moved (a ++ r :: b) + 1) ∧
      (r.handed ≠ [] → moved (a ++ r' :: b) = moved (a ++ r :: b) ∧ 0 < moved (a ++ r :: b)) := by
  simp only [handedOut, moved, List.map_append, List.map_cons, List.sum_append, List.sum_cons,
    List.countP_append, List.countP_cons, h, List.length_append, List.length_singleton]
  cases r.handed <;> simp <;> omega

/-- An access of one of the readers that pays for what it hands out keeps the budget shared. -/
theorem Shares.access {w : World} {a b : List (Reader (Bytes × Bytes))} {r : Reader (Bytes × Bytes)}
    (h : Shares w₀ id limit scans (w, a ++ r :: b)) {y : World × Reader (Bytes × Bytes)}
    (hpays : Pays id limit w r.handed y) (hstores : y.1.stores = w.stores)
    (hreaders : List.Forall₂ (fun z r => ∃ left, z.1.Underway (w₀.store z.1.store) z.2 r left) scans
      (a ++ y.2 :: b)) : Shares w₀ id limit scans (y.1, a ++ y.2 :: b) := by
  have hstores := hstores.trans h.stores
  have hscanned : (w.budget id).scanned = handedOut (a ++ r :: b) := h.scanned
  have hbound : handedOut (a ++ r :: b) = 0 ∨
      handedOut (a ++ r :: b) + 1 ≤ max limit 1 + moved (a ++ r :: b) := h.bound
  rcases hpays with ⟨hsame, hbudgets⟩ | ⟨⟨e, he⟩, hbudgets, hallowed⟩
  · have hbudget := World.budget_eq_of_budgets_eq hbudgets id
    obtain ⟨hcount, hmoved⟩ := counts_of_none (a := a) (b := b) hsame
    refine ⟨hstores, hbudgets ▸ h.made, hbudget ▸ h.limited, ?_, ?_, hreaders⟩
    · rw [hbudget, hscanned, hcount]
    · rwa [hcount, hmoved]
  · have hbudget : y.1.budget id = ⟨some limit, (w.budget id).scanned + 1⟩ :=
      (World.budget_eq_of_budgets_eq (w := w.setBudget _ _) hbudgets id).trans
        (World.budget_setBudget h.made _)
    obtain ⟨hcount, hfirst, hlater⟩ := counts_of_pair (a := a) (b := b) he
    refine ⟨hstores, ?_, congrArg Budget.limit hbudget, ?_, ?_, hreaders⟩
    · rw [hbudgets, List.length_set]
      exact h.made
    · rw [hbudget, hcount, hscanned]
    · rw [hcount]
      by_cases hnil : r.handed = []
      · rw [hfirst hnil]
        omega
      · -- it was not the first pair of the reader, so the budget was not spent
        obtain ⟨hmoved, hpos⟩ := hlater hnil
        have := hallowed.resolve_left hnil
        rw [hmoved]
        omega

theorem Shares.turn (h : Shares w₀ id limit scans x)
    (hscans : ∀ y ∈ scans, y.1.budget = id ∧ (w₀.store y.1.store).Sorted) (i : Nat) :
    Shares w₀ id limit scans (turn x i) := by
  obtain ⟨w, rs⟩ := x
  cases hr : rs[i]? with
  | none =>
    rw [Cursor.turn, hr]
    exact h
  | some r =>
    obtain ⟨y, hy, ⟨left, underway⟩, hset⟩ := exists_of_forall₂ h.readers hr
    obtain ⟨rfl, hs⟩ := hscans y hy
    have hstore : w.store y.1.store = w₀.store y.1.store := by
      rw [World.store, World.store, h.stores]
    obtain ⟨hleft, hpays, hstores⟩ := underway.advances hs hstore h.limited
    have hreaders := hset _ hleft
    obtain ⟨a, b, rfl, hab⟩ := exists_set_eq hr
    rw [hab] at hreaders
    simp only [Cursor.turn, hr, hab]
    exact h.access hpays hstores hreaders

theorem Shares.interleave (h : Shares w₀ id limit scans x)
    (hscans : ∀ y ∈ scans, y.1.budget = id ∧ (w₀.store y.1.store).Sorted) (schedule : List Nat) :
    Shares w₀ id limit scans (interleave schedule x) := by
  induction schedule generalizing x with
  | nil => exact h
  | cons i schedule ih => exact ih (h.turn hscans i)

/-- Scans that were just opened share a new budget. -/
theorem shares_new {w : World} {cursors : List (Cursor (Bytes × Bytes))}
    (hopen : List.Forall₂ (fun y c => y.1.openAt (w.newBudget (some limit)).1 y.2 = .ok c) scans
      cursors) :
    Shares w w.budgets.length limit scans
      ((w.newBudget (some limit)).1, cursors.map fun c => ⟨[], c⟩) := by
  have hbudget := World.budget_newBudget w (some limit)
  have hnone : handedOut (cursors.map fun c => ⟨[], c⟩) = 0 := by
    rw [handedOut, List.map_map]
    exact List.sum_eq_zero fun n hn => by
      obtain ⟨c, -, rfl⟩ := List.mem_map.1 hn
      rfl
  refine ⟨rfl, ?_, congrArg Budget.limit hbudget, ?_, .inl hnone, ?_⟩
  · simp [World.newBudget]
  · rw [hbudget, hnone]
    rfl
  · refine List.forall₂_map_right_iff.2 (hopen.imp fun y c hc => ?_)
    exact underway_new rfl hc

/-- Only first pairs go beyond the limit, and the first of them only if the limit is zero. -/
theorem Shares.scanned_le (h : Shares w₀ id limit scans x) :
    (x.1.budget id).scanned ≤ max limit 1 + scans.length - 1 := by
  have hmoved : moved x.2 ≤ scans.length := h.readers.length_eq ▸ List.countP_le_length
  have hbound := h.bound
  rw [h.scanned]
  omega

/-- Where scans share a new budget and stores stay as they are, the number of pairs that they hand
out is the number of pairs that were taken from the budget, in whatever order they have their
accesses to the world, and it exceeds the limit of the budget by less than the number of scans.  A
scan that stops for the budget has handed out a pair before, stops right after the last one, and has
others left. -/
theorem shared_budget {w : World} {limit : Nat} {scans : List (KeyScan × Continuation)}
    {cursors : List (Cursor (Bytes × Bytes))}
    (hshared : ∀ y ∈ scans, y.1.budget = (w.newBudget (some limit)).2)
    (hsorted : ∀ y ∈ scans, (w.store y.1.store).Sorted)
    (hopen : List.Forall₂ (fun y c => y.1.openAt (w.newBudget (some limit)).1 y.2 = .ok c) scans
      cursors) (schedule : List Nat) {w' : World} {readers : List (Reader (Bytes × Bytes))}
    (hrun : interleave schedule ((w.newBudget (some limit)).1, cursors.map fun c => ⟨[], c⟩) =
      (w', readers)) :
    (readers.map fun r => r.handed.length).sum =
        (w'.budget (w.newBudget (some limit)).2).scanned ∧
      (w'.budget (w.newBudget (some limit)).2).scanned ≤ max limit 1 + scans.length - 1 ∧
      List.Forall₂ (fun y r => ∃ left, y.1.Reports (w.store y.1.store) y.2 r left) scans
        readers := by
  have h := (shares_new hopen).interleave (fun y hy => ⟨hshared y hy, hsorted y hy⟩) schedule
  rw [hrun] at h
  exact ⟨h.scanned.symm, h.scanned_le,
    h.readers.imp fun y r ⟨left, hleft⟩ => ⟨left, hleft.reports⟩⟩

/-- A store of three pairs. -/
def sampleShelf : World := World.empty.setStore "pairs" [([1], []), ([2], []), ([3], [])]

/-- A scan of all pairs by batches of two. -/
def sampleSweep (reverse : Bool) : KeyScan := ⟨"pairs", ⟨[1], [9]⟩, reverse, 2, 0⟩

/-- The scan as it is opened at the beginning. -/
def sampleOpened (reverse : Bool) : Cursor (Bytes × Bytes) :=
  (sampleSweep reverse).pairs ((sampleSweep reverse).mostPairs sampleShelf)
    ⟨none, [], false, .start, true⟩

/-- Two scans share a budget of one: both hand out their first pair, and none a second one. -/
theorem shared_budget_sample :
    let x := interleave [0, 1, 1, 0, 1, 1, 0, 0] ((sampleShelf.newBudget (some 1)).1,
      [⟨[], sampleOpened false⟩, ⟨[], sampleOpened true⟩])
    (x.1.budget 0).scanned = 2 ∧ (x.1.budget 0).scanned ≤ max 1 1 + 2 - 1 ∧
      x.2.map (fun r => r.handed.map fun e => e.1.1) = [[[1]], [[3]]] := by
  have hopen : List.Forall₂
      (fun y c => y.1.openAt (sampleShelf.newBudget (some 1)).1 y.2 = .ok c)
      [(sampleSweep false, .start), (sampleSweep true, .start)]
      [sampleOpened false, sampleOpened true] := .cons rfl (.cons rfl .nil)
  have h := shared_budget (by decide) (by decide) hopen [0, 1, 1, 0, 1, 1, 0, 0] rfl
  exact ⟨by decide, h.2.1, by decide⟩

end KeyScan

end ResumableQuery.Cursor
