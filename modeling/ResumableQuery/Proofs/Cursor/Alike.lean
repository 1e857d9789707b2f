import ResumableQuery.Proofs.Cursor.KeyScan
import ResumableQuery.RecordStore

/-!
# Scans of a part of a store

A scan of a key range sees nothing of the store but the pairs in the range.  Two worlds that agree
on these pairs, on the calls that succeed and on the budgets (`World.AgreeOn`) show it the same, and
so the cursors that are opened in them go on alike (`Alike`): row by row, whatever is made of the
rows on the way, and to the same end.
-/

namespace ResumableQuery

/-! ### Worlds -/

/-- Two worlds agree on the pairs of a store whose keys satisfy a predicate, and on what a scan of
them consults beside the store. -/
structure World.AgreeOn (name : StoreName) (p : Bytes → Bool) (w w' : World) : Prop where
  sorted : (w.store name).Sorted
  pairs : (w'.store name).filter (fun e => p e.1) = (w.store name).filter fun e => p e.1
  calls : w'.callsLeft = w.callsLeft
  budgets : w'.budgets = w.budgets

/-- A call succeeds in both worlds or in none. -/
theorem World.AgreeOn.call {name : StoreName} {p : Bytes → Bool} {w w' : World}
    (h : w.AgreeOn name p w') :
    (∃ e, w.call = .error e ∧ w'.call = .error e) ∨
      ∃ x x', w.call = .ok x ∧ w'.call = .ok x' ∧ x.AgreeOn name p x' ∧
        x.store name = w.store name ∧ x'.store name = w'.store name := by
  unfold World.call
  rw [h.calls]
  cases w.callsLeft with
  | none => exact .inr ⟨w, w', rfl, rfl, h, rfl, rfl⟩
  | some n =>
    cases n with
    | zero => exact .inl ⟨_, rfl, rfl⟩
    | succ n => exact .inr ⟨_, _, rfl, rfl, ⟨h.sorted, h.pairs, rfl, h.budgets⟩, rfl, rfl⟩

namespace Cursor

/-! ### Cursors -/

/-- Two cursors, each in its world, go on in the same way. -/
inductive Alike : Cursor α → World → Cursor α → World → Prop
  | row {v : α} {t : Continuation} {rest rest' : Unit → Cursor α} {w w' : World}
    (h : Alike (rest ()) w (rest' ()) w') : Alike (.row v t rest) w (.row v t rest') w'
  | stop (r : StopReason) (t : Continuation) {w w' : World} : Alike (.stop r t) w (.stop r t) w'
  | fail (e : CursorError) {w w' : World} : Alike (.fail e) w (.fail e) w'
  | consult {k k' : World → Cursor α} {w w' : World} (h : Alike (k w) w (k' w') w') :
    Alike (.consult k) w (.consult k') w'
  | commit {c c' : Cursor α} {x x' w w' : World} (h : Alike c x c' x') :
    Alike (.commit x c) w (.commit x' c') w'
  | pause {wait : Wait} {rest rest' : Unit → Cursor α} {w w' : World}
    (h : Alike (rest ()) (w.await wait) (rest' ()) (w'.await wait)) :
    Alike (.pause wait rest) w (.pause wait rest') w'

variable {w w' : World}

namespace Alike

variable {c c' : Cursor α}

theorem run_eq (h : Alike c w c' w') : (c.run w).2 = (c'.run w').2 := by
  induction h with
  | row h ih => simp only [run, ih]
  | stop r t | fail e => rfl
  | consult h ih | commit h ih | pause h ih => exact ih

theorem perform {act act' : World → World × β} {go go' : β → Cursor α}
    (h : Alike (go (act w).2) (act w).1 (go' (act' w').2) (act' w').1) :
    Alike (perform act go) w (perform act' go') w' := .consult (.commit h)

theorem tryMap (h : Alike c w c' w') (f : α → Except CursorError β) :
    Alike (c.tryMap f) w (c'.tryMap f) w' := by
  induction h with
  | @row v t _ _ _ _ h ih =>
    rw [Cursor.tryMap, Cursor.tryMap]
    cases f v with
    | ok u => exact .row ih
    | error e => exact .fail e
  | stop r t => exact .stop r t
  | fail e => exact .fail e
  | consult h ih => exact .consult ih
  | commit h ih => exact .commit ih
  | pause h ih => exact .pause ih

theorem stopFor (r : StopReason) (t : Continuation) :
    Alike (stopFor r t : Cursor α) w (Cursor.stopFor r t) w' := by
  unfold Cursor.stopFor
  split <;> exact .stop _ _

theorem limitFrom (h : Alike c w c' w') (p : ScanProperties) (skip returned : Nat) :
    Alike (limitFrom p skip returned c) w (Cursor.limitFrom p skip returned c') w' := by
  induction h generalizing skip returned with
  | row h ih =>
    rw [Cursor.limitFrom, Cursor.limitFrom]
    split
    · refine .row ?_
      cases reachedLimit p (returned + 1) with
      | some r => exact .stopFor r _
      | none => exact ih 0 (returned + 1)
    · exact ih (skip - 1) returned
  | stop r t => exact .stop r t
  | fail e => exact .fail e
  | consult h ih => exact .consult (ih skip returned)
  | commit h ih => exact .commit (ih skip returned)
  | pause h ih => exact .pause (ih skip returned)

theorem skipThenLimit (h : Alike c w c' w') (p : ScanProperties) (t : Continuation) :
    Alike (c.skipThenLimit p t) w (c'.skipThenLimit p t) w' := by
  unfold Cursor.skipThenLimit
  cases reachedLimit p 0 with
  | some r => exact .stopFor r t
  | none => exact h.limitFrom p _ 0

end Alike

/-! ### Scans -/

namespace KeyScan

variable {p : Bytes → Bool} (s : KeyScan) (hp : ∀ k, s.range.contains k = true → p k = true)

include hp

theorem pending_filter (content : Store) (last : Option Bytes) :
    s.pending (content.filter fun e => p e.1) last = s.pending content last := by
  have himp (k : Bytes) :
      ((s.remaining last).contains k && p k) = (s.remaining last).contains k := by
    cases hk : (s.remaining last).contains k with
    | false => rfl
    | true =>
      rw [contains_remaining, Bool.and_eq_true] at hk
      rw [hp k hk.1, Bool.and_self]
  unfold pending
  split
  · rw [← List.filter_reverse, List.filter_filter]
    simp only [himp]
  · rw [List.filter_filter]
    simp only [himp]

theorem pending_eq (h : w.AgreeOn s.store p w') (last : Option Bytes) :
    s.pending (w'.store s.store) last = s.pending (w.store s.store) last := by
  rw [← s.pending_filter hp (w'.store s.store), h.pairs, s.pending_filter hp]

theorem fetch_agree (h : w.AgreeOn s.store p w') (st : State)
    (hbuffer : st.buffer <+: s.pending (w.store s.store) st.lastKey) :
    (s.fetch st w').2 = (s.fetch st w).2 ∧
      (s.fetch st w).1.AgreeOn s.store p (s.fetch st w').1 ∧
      (s.fetch st w).1.store s.store = w.store s.store ∧
      ∀ st', (s.fetch st w).2 = .ok st' →
        st'.lastKey = st.lastKey ∧ st'.buffer <+: s.pending (w.store s.store) st'.lastKey := by
  unfold fetch
  split
  · rcases h.call with ⟨e, he, he'⟩ | ⟨x, x', hx, hx', hagree, hstore, hstore'⟩
    · simp only [World.scan, he, he']
      exact ⟨trivial, h, trivial, fun st' hst' => by cases hst'⟩
    · simp only [World.scan, hx, hx', hstore, hstore', scan_remaining, s.pending_eq hp h]
      refine ⟨trivial, hagree, trivial, fun st' hst' => ?_⟩
      cases hst'
      exact ⟨rfl, List.take_prefix _ _⟩
  · refine ⟨rfl, h, rfl, fun st' hst' => ?_⟩
    cases hst'
    exact ⟨rfl, hbuffer⟩

omit hp in
theorem charge_agree (h : w.AgreeOn s.store p w') (fresh : Bool) :
    (s.charge fresh w').2 = (s.charge fresh w).2 ∧
      (s.charge fresh w).1.AgreeOn s.store p (s.charge fresh w').1 ∧
      (s.charge fresh w).1.store s.store = w.store s.store := by
  have hbudget : w'.budget s.budget = w.budget s.budget := by
    rw [World.budget, World.budget, h.budgets]
  have hset (b : Budget) :
      (w.setBudget s.budget b).AgreeOn s.store p (w'.setBudget s.budget b) :=
    ⟨h.sorted, h.pairs, h.calls, by rw [World.setBudget, World.setBudget, h.budgets]⟩
  unfold charge
  rw [hbudget]
  split
  · exact ⟨rfl, hset _, rfl⟩
  · cases htry : (w.budget s.budget).tryScan with
    | some b =>
      simp only [htry]
      exact ⟨trivial, hset b, rfl⟩
    | none =>
      simp only [htry]
      exact ⟨trivial, h, trivial⟩

/-- Scans that will not run out of fuel go on alike in worlds that agree on their range. -/
theorem alike_pairs (n n' : Nat) (st : State) (h : w.AgreeOn s.store p w')
    (hbuffer : st.buffer <+: s.pending (w.store s.store) st.lastKey)
    (hn : (s.pending (w.store s.store) st.lastKey).length < n)
    (hn' : (s.pending (w.store s.store) st.lastKey).length < n') :
    Alike (s.pairs n st) w (s.pairs n' st) w' := by
  induction n generalizing n' st w w' with
  | zero => omega
  | succ n ih =>
    obtain ⟨n', rfl⟩ : ∃ m, n' = m + 1 := Nat.exists_eq_succ_of_ne_zero (by omega)
    obtain ⟨hfetch, hagree, hstore, hst⟩ := s.fetch_agree hp h st hbuffer
    refine .perform ?_
    rw [hfetch]
    cases hresult : (s.fetch st w).2 with
    | error e => exact .fail _
    | ok st' =>
      obtain ⟨hkey, hprefix⟩ := hst st' hresult
      rw [← hkey] at hn hn'
      rw [← hstore] at hprefix hn hn'
      cases hbuf : st'.buffer with
      | nil =>
        simp only [hbuf]
        exact .stop _ _
      | cons e buffer =>
        simp only [hbuf]
        rw [hbuf] at hprefix
        obtain ⟨hcharge, hcharged, hkept⟩ := s.charge_agree hagree st'.fresh
        refine .perform ?_
        rw [hcharge]
        cases (s.charge st'.fresh (s.fetch st w).1).2 with
        | false => exact .stop _ _
        | true =>
          obtain ⟨more, hmore⟩ := hprefix
          have hrest : s.pending _ (some e.1) = buffer ++ more :=
            s.pending_some hagree.sorted hmore.symm
          rw [← hmore, List.cons_append, List.length_cons] at hn hn'
          refine .row (ih n' _ hcharged ?_ ?_ ?_)
          · rw [hkept, hrest]
            exact List.prefix_append _ _
          · rw [hkept, hrest]
            omega
          · rw [hkept, hrest]
            omega

/-- Scans that are opened at the same continuation in two worlds that agree on their range are both
refused or go on alike. -/
theorem alike_openAt (h : w.AgreeOn s.store p w') (c : Continuation) :
    (∃ e, s.openAt w c = .error e ∧ s.openAt w' c = .error e) ∨
      ∃ rows rows', s.openAt w c = .ok rows ∧ s.openAt w' c = .ok rows' ∧
        Alike rows w rows' w' := by
  by_cases hd : c = .done
  · subst hd
    exact .inr ⟨_, _, rfl, rfl, .stop _ _⟩
  cases hposition : c.position KeyPosition.ofWire with
  | error e =>
    have hopen (x : World) : s.openAt x c = .error (.badContinuation e) := by
      cases c with
      | done => exact absurd rfl hd
      | start | resume => simp only [openAt, hposition]
    exact .inl ⟨_, hopen w, hopen w'⟩
  | ok position =>
    have hopen (x : World) : s.openAt x c =
        .ok (({ s with batch := max 1 s.batch } : KeyScan).pairs (s.mostPairs x)
          ⟨position.map (·.lastKey), [], false, c, true⟩) := by
      cases c with
      | done => exact absurd rfl hd
      | start | resume =>
        simp only [openAt, hposition]
        rfl
    refine .inr ⟨_, _, hopen w, hopen w', ?_⟩
    have hpositive : 0 < UInt64.size := by decide
    have hlen := s.length_pending_le (w.store s.store) (position.map (·.lastKey))
    have hlen' := s.length_pending_le (w'.store s.store) (position.map (·.lastKey))
    rw [s.pending_eq hp h] at hlen'
    refine alike_pairs { s with batch := max 1 s.batch } hp _ _ _ h List.nil_prefix ?_ ?_
    · exact Nat.lt_of_le_of_lt hlen (by rw [mostPairs]; omega)
    · exact Nat.lt_of_le_of_lt hlen' (by rw [mostPairs]; omega)

end KeyScan

end Cursor

end ResumableQuery
