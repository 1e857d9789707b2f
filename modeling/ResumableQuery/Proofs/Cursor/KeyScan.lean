import ResumableQuery.Cursor.Source
import ResumableQuery.Proofs.Bytes
import ResumableQuery.Proofs.Cursor.Follows
import ResumableQuery.Proofs.Ordered
import ResumableQuery.Proofs.Position

/-!
# Scans of stored pairs

Over a store that does not change, a scan of a key range hands out the pairs of the range that lie
beyond its last key, in its direction (`follows_openAt`).  Batches do not show: what is in the
buffer is always the beginning of what is ahead, and all of it once the range was read to its end.
The budget can stop the scan only after its first pair.
-/

namespace ResumableQuery

/-- The store of a name has a content, no call of it fails, and where nothing is to be limited the
budget of a number is not limited either. -/
structure World.Serves (name : StoreName) (content : Store) (id : BudgetId) (limited : Bool)
    (w : World) : Prop where
  content : w.store name = content
  calls : w.callsLeft = none
  budget : limited = false → (w.budget id).limit = none

theorem World.Serves.setBudget {name : StoreName} {content : Store} {id : BudgetId} {limited : Bool}
    {w : World} (h : w.Serves name content id limited) {b : Budget}
    (hb : limited = false → b.limit = none) :
    (w.setBudget id b).Serves name content id limited where
  content := h.content
  calls := h.calls
  budget hl := by
    show ((w.budgets.set id b)[id]?.getD (Budget.new none)).limit = none
    rw [List.getElem?_set]
    split
    · split
      · exact hb hl
      · rfl
    · exact h.budget hl

namespace Cursor.KeyScan

variable (s : KeyScan) (content : Store)

/-! ### Pairs ahead -/

/-- Whether a key comes after another one in the direction of the scan. -/
def comesAfter (last k : Bytes) : Bool := if s.reverse then k.before last else last.before k

/-- The pairs that the scan has ahead after its last key, in its direction. -/
def pending (last : Option Bytes) : List (Bytes × Bytes) :=
  (if s.reverse then content.reverse else content).filter fun e => (s.remaining last).contains e.1

theorem scan_remaining (last : Option Bytes) (n : Nat) :
    content.scan (s.remaining last) s.reverse n = (s.pending content last).take n := by
  unfold Store.scan Store.within pending
  cases s.reverse with
  | true => simp only [if_true, List.filter_reverse]
  | false => rfl

/-- A key is left in the range if it lies in the range and comes after the last key. -/
theorem contains_remaining (last : Option Bytes) (k : Bytes) :
    (s.remaining last).contains k = (s.range.contains k && last.all (s.comesAfter · k)) := by
  cases last with
  | none => simp [remaining]
  | some last =>
    show (s.remaining (some last)).contains k = (s.range.contains k && s.comesAfter last k)
    unfold remaining comesAfter KeyRange.contains
    cases s.reverse with
    | true =>
      by_cases hls : last.before s.range.stop = true
      · have hk := fun h : k.before last = true => Bytes.before_trans h hls
        simp only [hls, if_true]
        cases hkl : k.before last with
        | true => rw [hk hkl, Bool.and_true, Bool.and_true]
        | false => rw [Bool.and_false, Bool.and_false]
      · have hk := fun h => Bytes.before_of_not_before (a := k) h (Bool.eq_false_iff.2 hls)
        simp only [hls, if_true]
        cases hks : k.before s.range.stop with
        | true => simp [hk hks, hks]
        | false => simp [hks]
    | false =>
      simp only [Bool.false_eq_true, if_false, Bytes.before_concat_zero]
      cases hlf : last.before s.range.first with
      | true =>
        have hk := Bytes.before_of_not_before (c := k) hlf
        cases hkf : k.before s.range.first with
        | true => simp [hkf]
        | false => simp [hkf, hk hkf]
      | false =>
        cases hlk : last.before k with
        | true =>
          have hkf : k.before s.range.first = false := by
            refine Bool.eq_false_iff.2 fun h => ?_
            rw [Bytes.before_trans hlk h] at hlf
            cases hlf
          simp [Bytes.before_concat_zero, hlk, hkf]
        | false => simp [Bytes.before_concat_zero, hlk]

theorem pairwise_comesAfter {content : Store} (h : content.Sorted) :
    (if s.reverse then content.reverse else content).Pairwise
      fun a b => s.comesAfter a.1 b.1 = true := by
  unfold comesAfter
  cases s.reverse with
  | true =>
    simp only [if_true]
    exact List.pairwise_reverse.2 (h.imp fun h => Bytes.before_iff.2 h)
  | false =>
    simp only [Bool.false_eq_true, if_false]
    exact h.imp fun h => Bytes.before_iff.2 h

theorem comesAfter_trans {a b c : Bytes} (h : s.comesAfter a b = true)
    (k : s.comesAfter b c = true) : s.comesAfter a c = true := by
  unfold comesAfter at *
  split at h
  · rw [if_pos (by assumption)] at k ⊢
    exact Bytes.before_trans k h
  · rw [if_neg (by assumption)] at k ⊢
    exact Bytes.before_trans h k

theorem not_comesAfter_self (a : Bytes) : s.comesAfter a a = false := by
  have : a.before a = false := by
    have hself : compare a a = .eq := Std.ReflCmp.compare_self
    rw [Bytes.before, hself]
    rfl
  rw [comesAfter, this, ite_self]

/-- After the first pair ahead was handed out, the others are ahead. -/
theorem pending_some {content : Store} (h : content.Sorted) {last : Option Bytes}
    {e : Bytes × Bytes} {rest : List (Bytes × Bytes)}
    (hp : s.pending content last = e :: rest) : s.pending content (some e.1) = rest := by
  have ordered := (s.pairwise_comesAfter h).filter fun x => (s.remaining last).contains x.1
  rw [← pending, hp, List.pairwise_cons] at ordered
  have first : (s.remaining last).contains e.1 = true :=
    (List.mem_filter.1 (hp ▸ List.mem_cons_self : e ∈ s.pending content last)).2
  rw [contains_remaining, Bool.and_eq_true] at first
  -- what comes after the first pair also comes after the last key before it
  have narrow : ∀ x : Bytes × Bytes, (s.remaining (some e.1)).contains x.1 =
      (s.comesAfter e.1 x.1 && (s.remaining last).contains x.1) := by
    intro x
    rw [contains_remaining, contains_remaining, Option.all_some]
    cases hx : s.comesAfter e.1 x.1 with
    | false => rw [Bool.and_false, Bool.false_and]
    | true =>
      have hlast : last.all (s.comesAfter · x.1) = true := by
        cases last with
        | none => rfl
        | some last => exact s.comesAfter_trans first.2 hx
      rw [hlast, Bool.true_and]
  rw [pending, funext narrow, ← List.filter_filter, ← pending, hp, List.filter_cons,
    s.not_comesAfter_self, if_neg Bool.false_ne_true]
  exact List.filter_eq_self.2 ordered.1

theorem mem_of_mem_pending {content : Store} {last : Option Bytes} {e : Bytes × Bytes}
    (h : e ∈ s.pending content last) : e ∈ content := by
  have := (List.mem_filter.1 h).1
  split at this
  · exact List.mem_reverse.1 this
  · exact this

theorem length_pending_le (last : Option Bytes) :
    (s.pending content last).length ≤ content.length := by
  refine Nat.le_trans (List.length_filter_le _ _) ?_
  split
  · exact Nat.le_of_eq List.length_reverse
  · exact Nat.le_refl _

/-! ### The reading of a scan -/

/-- The pairs that are ahead of a continuation. -/
def pendingAt : Continuation → List (Bytes × Bytes)
  | .done => []
  | c =>
    match c.position KeyPosition.ofWire with
    | .ok p => s.pending content (p.map (·.lastKey))
    | .error _ => []

/-- The continuations of a scan over a store: each stands for the pairs beyond its key. -/
def reading : Reading (Bytes × Bytes) where
  issued c := c = .start ∨ c = .done ∨ ∃ e ∈ content, c = (KeyPosition.mk e.1).toContinuation
  ahead c := .ofList (s.pendingAt content c)
  outlook c := [s.pendingAt content c]
  issued_start := .inl rfl
  issued_done := .inr (.inl rfl)
  ahead_done := rfl
  recedes_done _ := .cons (List.nil_suffix) .nil

/-- The lengths of the keys of a store fit a machine word. -/
def KeysFit (content : Store) : Prop := ∀ e ∈ content, e.1.length < 2 ^ 64

instance (content : Store) : Decidable (KeysFit content) :=
  inferInstanceAs (Decidable (∀ e ∈ content, e.1.length < 2 ^ 64))

variable {s content}

theorem pendingAt_of_position {c : Continuation} {p : Option KeyPosition} (hc : c ≠ .done)
    (h : c.position KeyPosition.ofWire = .ok p) :
    s.pendingAt content c = s.pending content (p.map (·.lastKey)) := by
  cases c with
  | done => exact absurd rfl hc
  | start | resume => simp only [pendingAt, h]

theorem pendingAt_toContinuation {k : Bytes} (h : k.length < 2 ^ 64) :
    s.pendingAt content (KeyPosition.mk k).toContinuation = s.pending content (some k) :=
  pendingAt_of_position (KeyPosition.toContinuation_ne_done ⟨k⟩)
    (KeyPosition.position_toContinuation (p := ⟨k⟩) h)

theorem length_pendingAt_le (c : Continuation) :
    (s.pendingAt content c).length ≤ content.length := by
  unfold pendingAt
  split
  · exact Nat.zero_le _
  · split
    · exact s.length_pending_le content _
    · exact Nat.zero_le _

/-! ### Steps of a scan -/

/-- What a scan has read agrees with the store. -/
structure State.Stands (s : KeyScan) (content : Store) (st : State) : Prop where
  issued : (s.reading content).issued st.token
  token : s.pendingAt content st.token = s.pending content st.lastKey
  buffer : st.buffer <+: s.pending content st.lastKey
  sourceDone : st.sourceDone = true → st.buffer = s.pending content st.lastKey

variable {id : BudgetId} {limited : Bool} {w : World} {st : State}

/-- A batch that was read is the beginning of what is ahead, and it is empty only if nothing is
ahead. -/
theorem fetch_buffer (hb : 1 ≤ s.batch) (hw : w.store s.store = content)
    (hbuffer : st.buffer <+: s.pending content st.lastKey)
    (hdone : st.sourceDone = true → st.buffer = s.pending content st.lastKey) {st' : State}
    (hfetch : (s.fetch st w).2 = .ok st') :
    ∃ buffer done, st' = { st with buffer := buffer, sourceDone := done } ∧
      buffer <+: s.pending content st.lastKey ∧
      (done = true → buffer = s.pending content st.lastKey) ∧
      (buffer = [] → s.pending content st.lastKey = []) := by
  unfold fetch at hfetch
  split at hfetch
  · rw [World.scan] at hfetch
    cases hcall : w.call with
    | error e =>
      rw [hcall] at hfetch
      cases hfetch
    | ok w' =>
      have hstore : w'.store s.store = content := by
        unfold World.call at hcall
        split at hcall <;> cases hcall <;> exact hw
      rw [hcall] at hfetch
      simp only [hstore, scan_remaining, Except.ok.injEq] at hfetch
      refine ⟨_, _, hfetch.symm, List.take_prefix _ _, fun hdone => ?_, fun hnil => ?_⟩
      · have := of_decide_eq_true hdone
        rw [List.length_take] at this
        exact List.take_of_length_le (by omega)
      · rcases List.take_eq_nil_iff.1 hnil with h0 | h
        · omega
        · exact h
  · rename_i hread
    cases hfetch
    refine ⟨_, _, rfl, hbuffer, hdone, fun hnil => ?_⟩
    have hsource : st.sourceDone = true := by
      by_contra hsource
      exact hread (by rw [hnil, Bool.eq_false_iff.2 hsource]; rfl)
    rw [← hdone hsource, hnil]

/-- Where no call fails, a batch is read without the world being changed. -/
theorem exists_fetch (hw : w.callsLeft = none) : ∃ st', s.fetch st w = (w, .ok st') := by
  unfold fetch
  split
  · have hcall : w.call = .ok w := by rw [World.call, hw]
    rw [World.scan, hcall]
    exact ⟨_, rfl⟩
  · exact ⟨st, rfl⟩

theorem fetch_spec (hb : 1 ≤ s.batch) (hw : w.Serves s.store content id limited)
    (h : st.Stands s content) :
    ∃ st' : State, s.fetch st w = (w, .ok st') ∧ st'.Stands s content ∧ st'.lastKey = st.lastKey ∧
      st'.token = st.token ∧ st'.fresh = st.fresh ∧
      (st'.buffer = [] → s.pending content st.lastKey = []) := by
  obtain ⟨st', hfetch⟩ : ∃ st', s.fetch st w = (w, .ok st') := exists_fetch hw.calls
  obtain ⟨buffer, done, rfl, hbuffer, hdone, hdry⟩ :=
    fetch_buffer hb hw.content h.buffer h.sourceDone (congrArg Prod.snd hfetch)
  exact ⟨_, hfetch, ⟨h.issued, h.token, hbuffer, hdone⟩, rfl, rfl, rfl, hdry⟩

theorem charge_spec (hw : w.Serves s.store content s.budget limited) (fresh : Bool) :
    (s.charge fresh w).1.Serves s.store content s.budget limited ∧
      ((s.charge fresh w).2 = false → limited = true ∧ fresh = false) := by
  unfold charge
  cases fresh with
  | true => exact ⟨hw.setBudget fun hl => hw.budget hl, nofun⟩
  | false =>
    simp only [Bool.false_eq_true, if_false]
    cases hl : (w.budget s.budget).limit with
    | none =>
      simp only [Budget.tryScan, hl]
      exact ⟨hw.setBudget fun _ => rfl, nofun⟩
    | some n =>
      have under : limited = true := by
        cases limited with
        | true => rfl
        | false =>
          rw [hw.budget rfl] at hl
          cases hl
      simp only [Budget.tryScan, hl]
      split
      · rename_i hsome
        split at hsome
        · cases hsome
          exact ⟨hw.setBudget fun h => (by rw [under] at h; cases h), nofun⟩
        · cases hsome
      · exact ⟨hw, fun _ => ⟨under, trivial⟩⟩

theorem follows_row {W : World → Prop} {c t : Continuation} {fresh : Bool} {e : Bytes × Bytes}
    {ahead : List (Bytes × Bytes)} {rest : Unit → Cursor (Bytes × Bytes)}
    (hc : s.pendingAt content c = e :: ahead) (ht : s.pendingAt content t = ahead)
    (issued : (s.reading content).issued t)
    (h : Follows W (s.reading content) limited (rest ()) false t) :
    Follows W (s.reading content) limited (.row e t rest) fresh c := by
  have hd : (s.reading content).Passes c t := by
    show Outlook.Advances [s.pendingAt content c] [s.pendingAt content t]
    rw [hc, ht]
    exact ⟨.cons (List.suffix_cons _ _) .nil, by simp⟩
  have hy : (s.reading content).ahead c = .row e ((s.reading content).ahead t) := by
    show Prospect.ofList (s.pendingAt content c) = .row e (.ofList (s.pendingAt content t))
    rw [hc, ht, Prospect.ofList]
  exact .row issued hd (.inl hy) h

/-- The pairs from a state on are those ahead of its continuation. -/
theorem follows_pairs (hs : content.Sorted) (hk : KeysFit content) (hb : 1 ≤ s.batch) (n : Nat)
    (st : State) (h : st.Stands s content) (hn : (s.pending content st.lastKey).length < n) :
    Follows (World.Serves s.store content s.budget limited) (s.reading content) limited
      (s.pairs n st) st.fresh st.token := by
  induction n generalizing st with
  | zero => omega
  | succ n ih =>
    refine .perform fun w hw => ?_
    obtain ⟨st', hfetch, hst', hkey, htoken, hfresh, hdry⟩ := fetch_spec hb hw h
    have hprefix := hst'.buffer
    have hdone := hst'.sourceDone
    rw [hkey] at hprefix hdone
    rw [hfetch]
    refine ⟨hw, ?_⟩
    cases hbuf : st'.buffer with
    | nil =>
      simp only [hbuf]
      refine .dry (.inl ?_)
      show Prospect.ofList (s.pendingAt content st.token) = _
      rw [h.token, hdry hbuf, Prospect.ofList]
    | cons e buffer =>
      simp only [hbuf]
      rw [hbuf] at hprefix hdone
      obtain ⟨more, hmore⟩ := hprefix
      have hpending : s.pending content st.lastKey = e :: (buffer ++ more) := hmore.symm
      have hrest := s.pending_some hs hpending
      have hmem : e ∈ content := s.mem_of_mem_pending (hpending ▸ List.mem_cons_self)
      refine .perform fun w hw => ?_
      obtain ⟨hw', hcharge⟩ := charge_spec hw st'.fresh
      refine ⟨hw', ?_⟩
      cases hallowed : (s.charge st'.fresh w).2 with
      | false =>
        -- the first pair of an execution always passes, so the scan has moved before
        obtain ⟨under, hnot⟩ := hcharge hallowed
        rw [hfresh] at hnot
        rw [htoken, hnot]
        refine .limit under rfl h.issued (.refl _) ?_ (.refl _)
        intro hfresh
        cases hfresh
      | true =>
        have htok : s.pendingAt content (KeyPosition.mk e.1).toContinuation =
            s.pending content (some e.1) := pendingAt_toContinuation (hk e hmem)
        have hissued : (s.reading content).issued (KeyPosition.mk e.1).toContinuation :=
          .inr (.inr ⟨e, hmem, rfl⟩)
        refine follows_row (h.token.trans hpending) (htok.trans hrest) hissued ?_
        refine ih ⟨some e.1, buffer, st'.sourceDone, _, false⟩ ⟨hissued, htok, ?_, fun hd => ?_⟩ ?_
        · rw [hrest]
          exact List.prefix_append _ _
        · have := hdone hd
          rw [hpending] at this
          rw [hrest]
          exact (List.cons.inj this).2
        · rw [hpending, List.length_cons] at hn
          rw [hrest]
          omega

/-- A scan that is opened at a continuation hands out the pairs that are ahead of it. -/
theorem follows_openAt (limited : Bool) (hs : content.Sorted) (hk : KeysFit content) {x : World}
    (hx : x.store s.store = content) {c : Continuation} (hc : (s.reading content).issued c) :
    ∃ rows, s.openAt x c = .ok rows ∧
      Follows (World.Serves s.store content s.budget limited) (s.reading content) limited rows
        true c := by
  by_cases hd : c = .done
  · subst hd
    exact ⟨_, rfl, .dry (.inl rfl)⟩
  · have hp : ∃ p, c.position KeyPosition.ofWire = .ok p := by
      rcases hc with rfl | rfl | ⟨e, he, rfl⟩
      · exact ⟨_, rfl⟩
      · exact absurd rfl hd
      · exact ⟨_, KeyPosition.position_toContinuation (hk e he)⟩
    obtain ⟨p, hp⟩ := hp
    have hopen : s.openAt x c = .ok ((({ s with batch := max 1 s.batch } : KeyScan)).pairs
        (s.mostPairs x) ⟨p.map (·.lastKey), [], false, c, true⟩) := by
      cases c with
      | done => exact absurd rfl hd
      | start | resume =>
        simp only [openAt, hp]
        rfl
    refine ⟨_, hopen, ?_⟩
    have stands : (State.mk (p.map (·.lastKey)) [] false c true).Stands s content :=
      ⟨hc, pendingAt_of_position hd hp, List.nil_prefix, nofun⟩
    have hn : (s.pending content (p.map (·.lastKey))).length < s.mostPairs x := by
      have := s.length_pending_le content (p.map (·.lastKey))
      have : 0 < UInt64.size := by decide
      rw [mostPairs, hx]
      omega
    exact follows_pairs (s := { s with batch := max 1 s.batch }) hs hk (Nat.le_max_left _ _) _ _
      ⟨stands.issued, stands.token, stands.buffer, stands.sourceDone⟩ hn

end Cursor.KeyScan

end ResumableQuery
