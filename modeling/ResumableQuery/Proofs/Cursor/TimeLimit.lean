import ResumableQuery.Proofs.Cursor.Confined

/-!
# What comes before a stop for the time limit

A cursor that has limits of its own does not stop for the time limit before its first row, but the
rows of its parts may be left out on the way to it, and its parts stop for the time limit as well.
`Timely` says what is left of that for a whole cursor: while the worlds in which it is asked are of
one kind, it does not stop for the time limit before it hands out a row, or before it has brought
about a world of another kind.

There are two cases of interest.  Of a cursor that leaves out no row it is that it hands out one,
and of any cursor that it has taken a pair from its budget (`World.meters_budget`).  Both are kept
by the same steps.
-/

namespace ResumableQuery

/-- What scans on a budget do to worlds of two kinds: reading leaves the kind of a world as it is,
and taking a pair from the budget brings about the second kind, or else rows are handed out. -/
structure World.Meters (id : BudgetId) (before after : World → Prop) (hands : Prop) : Prop where
  same {w w'} : w'.budgets = w.budgets → before w → before w'
  kept {w w'} : w'.budgets = w.budgets → after w → after w'
  pays {w b} : b.scanned = (w.budget id).scanned + 1 → before w →
    after (w.setBudget id b) ∨ before (w.setBudget id b) ∧ hands
  paid {w b} : b.scanned = (w.budget id).scanned + 1 → after w → after (w.setBudget id b)

/-- Nothing is asked of the world, so rows have to be handed out. -/
theorem World.meters_any (id : BudgetId) : Meters id (fun _ => True) (fun _ => False) True where
  same _ _ := trivial
  kept _ h := h
  pays _ _ := .inr ⟨trivial, trivial⟩
  paid _ h := h

/-- A pair was taken from the budget. -/
theorem World.meters_budget (id : BudgetId) :
    Meters id (fun w => id < w.budgets.length ∧ (w.budget id).scanned = 0)
      (fun w => id < w.budgets.length ∧ 1 ≤ (w.budget id).scanned) False where
  same h hw := by rwa [h, budget_eq_of_budgets_eq h]
  kept h hw := by rwa [h, budget_eq_of_budgets_eq h]
  pays {w b} hb hw := by
    refine .inl ⟨(length_budgets_setBudget w id b).symm ▸ hw.1, ?_⟩
    rw [budget_setBudget hw.1, hb]
    exact Nat.le_add_left 1 _
  paid {w b} hb hw := by
    refine ⟨(length_budgets_setBudget w id b).symm ▸ hw.1, ?_⟩
    rw [budget_setBudget hw.1, hb]
    exact Nat.le_add_left 1 _

namespace Cursor

/-- While it is asked in worlds that satisfy `W`, the cursor keeps to such worlds. -/
abbrev Keeps (W : World → Prop) (c : Cursor α) : Prop := c.Confined W (fun _ => True) fun _ => True

/-- While it is asked in worlds that satisfy `before`, the cursor does not stop for the time limit,
until it hands out a row, which it does with `hands` only, or brings about a world that satisfies
`after`, from where on it keeps to such worlds. -/
def Timely (before after : World → Prop) (hands : Prop) : Cursor α → Prop
  | row _ _ rest => hands ∧ (rest ()).Keeps after
  | stop r _ => r ≠ .timeLimit
  | fail _ => True
  | consult k => ∀ w, before w → (k w).Timely before after hands
  | commit w c => after w ∧ c.Keeps after ∨ before w ∧ c.Timely before after hands
  | pause _ rest => (rest ()).Timely before after hands ∧ (rest ()).Keeps after

variable {before after W : World → Prop} {hands : Prop} {c : Cursor α}

theorem timely_consult {k : World → Cursor α}
    (h : ∀ w, before w → (k w).Timely before after hands) :
    (consult k).Timely before after hands :=
  h

theorem timely_perform {act : World → World × β} {go : β → Cursor α}
    (h : ∀ w, before w → after (act w).1 ∧ (go (act w).2).Keeps after ∨
      before (act w).1 ∧ (go (act w).2).Timely before after hands) :
    (perform act go).Timely before after hands :=
  h

/-! ### Reading -/

theorem Keeps.run (h : c.Keeps W) (hawait : ∀ w wait, W w → W (w.await wait)) {w : World}
    (hw : W w) : W (c.run w).1 := by
  induction c generalizing w with
  | row v t rest ih => exact ih () h.2.2 hw
  | stop | fail => exact hw
  | consult k ih => exact ih w (h w hw) hw
  | commit w' c ih => exact ih h.2 h.1
  | pause wait rest ih => exact ih () h (hawait w wait hw)

/-- A cursor that was read to its end has brought about a world of the second kind, or handed out a
row, or it did not stop for the time limit. -/
theorem Timely.run (h : c.Timely before after hands)
    (hbefore : ∀ w wait, before w → before (w.await wait))
    (hafter : ∀ w wait, after w → after (w.await wait)) {w : World} (hw : before w) :
    after (c.run w).1 ∨ hands ∧ (c.run w).2.1 ≠ [] ∨
      ∀ t, (c.run w).2.2 ≠ .stopped .timeLimit t := by
  induction c generalizing w with
  | row v t rest ih => exact .inr (.inl ⟨h.1, List.cons_ne_nil _ _⟩)
  | stop r t =>
    refine .inr (.inr fun t' heq => ?_)
    cases heq
    exact h rfl
  | fail e =>
    refine .inr (.inr fun t heq => ?_)
    cases heq
  | consult k ih => exact ih w (h w hw) hw
  | commit w' c ih =>
    rcases h with ⟨hw', keeps⟩ | ⟨hw', h⟩
    · exact .inl (keeps.run hafter hw')
    · exact ih h hw'
  | pause wait rest ih => exact ih () h.1 (hbefore w wait hw)

/-- How far a cursor gets without waiting that keeps to worlds. -/
def Progress.Keeps (W : World → Prop) : Progress α → Prop
  | .ready (.row _ _ rest) => rest.Keeps W
  | .ready (.stop _ _) => True
  | .ready (.fail _) => True
  | .pending _ rest => rest.Keeps W

/-- How far a timely cursor gets without waiting, if the world is not yet of the second kind. -/
def Progress.Timely (before after : World → Prop) (hands : Prop) : Progress α → Prop
  | .ready (.row _ _ rest) => hands ∧ rest.Keeps after
  | .ready (.stop r _) => r ≠ .timeLimit
  | .ready (.fail _) => True
  | .pending _ rest => rest.Timely before after hands ∧ rest.Keeps after

theorem Keeps.poll (h : c.Keeps W) {w : World} (hw : W w) :
    W (c.poll w).1 ∧ (c.poll w).2.Keeps W := by
  obtain ⟨hw', hpoll⟩ := Confined.poll h hw
  refine ⟨hw', ?_⟩
  generalize (c.poll w).2 = progress at hpoll ⊢
  rcases progress with (_ | _ | _) | _
  · exact hpoll.2.2
  · trivial
  · trivial
  · exact hpoll

theorem Timely.poll (h : c.Timely before after hands) {w : World} (hw : before w) :
    after (c.poll w).1 ∧ (c.poll w).2.Keeps after ∨
      before (c.poll w).1 ∧ (c.poll w).2.Timely before after hands := by
  induction c generalizing w with
  | row | stop | fail | pause => exact .inr ⟨hw, h⟩
  | consult k ih => exact ih w (h w hw) hw
  | commit w' c ih =>
    rcases h with ⟨hw', keeps⟩ | ⟨hw', h⟩
    · exact .inl (keeps.poll hw')
    · exact ih h hw'

/-! ### Scans of stored pairs -/

namespace KeyScan

variable {s : KeyScan}

/-- Scans keep to worlds that reading and drawing on their budget keep to. -/
theorem keeps_pairs (hsame : ∀ {w w' : World}, w'.budgets = w.budgets → W w → W w')
    (hpaid : ∀ {w : World} {b : Budget}, b.scanned = (w.budget s.budget).scanned + 1 → W w →
      W (w.setBudget s.budget b)) (count : Nat) (st : State) : (s.pairs count st).Keeps W := by
  induction count generalizing st with
  | zero => trivial
  | succ count ih =>
    rw [pairs]
    refine confined_perform (fun w hw => hsame (budgets_fetch st w) hw) fun w hw => ?_
    split
    · trivial
    · split
      · trivial
      · refine confined_perform (fun w hw => ?_) fun w hw => ?_
        · rcases charge_cases (s := s) _ w with ⟨b, hb, hcharge⟩ | hcharge
          · rw [hcharge]
            exact hpaid hb hw
          · rw [hcharge]
            exact hw
        · split
          · exact ⟨trivial, trivial, ih _⟩
          · trivial

/-- A scan does not stop for the time limit, and its first pair is charged. -/
theorem timely_pairs (meters : World.Meters s.budget before after hands) (count : Nat)
    (st : State) : (s.pairs count st).Timely before after hands := by
  have keeps := keeps_pairs (s := s) meters.kept meters.paid
  cases count with
  | zero =>
    intro h
    cases h
  | succ count =>
    rw [pairs]
    refine timely_perform fun w hw => .inr ⟨meters.same (budgets_fetch st w) hw, ?_⟩
    split
    · trivial
    · rename_i st' _
      split
      · intro h
        cases h
      · refine timely_perform fun w hw => ?_
        rcases charge_cases (s := s) st'.fresh w with ⟨b, hb, hcharge⟩ | hcharge
        · rw [hcharge, if_pos rfl]
          refine (meters.pays hb hw).imp (And.intro · ?_) (And.imp_right fun h => ?_)
          · exact ⟨trivial, trivial, keeps count _⟩
          · exact ⟨h, keeps count _⟩
        · rw [hcharge, if_neg Bool.false_ne_true]
          refine .inr ⟨hw, fun h => ?_⟩
          cases h

theorem opensTo_openAt_timely (meters : World.Meters s.budget before after hands) (w : World)
    (c : Continuation) :
    OpensTo (fun pairs => pairs.Timely before after hands ∧ pairs.Keeps after) (s.openAt w c) := by
  rw [openAt.eq_def]
  split
  · refine ⟨fun heq => ?_, trivial⟩
    cases heq
  · split
    · rfl
    · exact ⟨timely_pairs (s := { s with batch := max 1 s.batch }) meters _ _,
        keeps_pairs (s := { s with batch := max 1 s.batch }) meters.kept meters.paid _ _⟩

end KeyScan

/-! ### Adapters -/

theorem Keeps.tryMap (h : c.Keeps W) (f : α → Except CursorError β) : (c.tryMap f).Keeps W :=
  (Confined.tryMap h f).mono (fun _ _ => trivial) fun _ _ => trivial

theorem Keeps.filter (h : c.Keeps W) (p : α → Bool) : (c.filter p).Keeps W :=
  (Confined.filter h p).mono (fun _ _ => trivial) fun _ _ => trivial

theorem Keeps.limitFrom (h : c.Keeps W) (p : ScanProperties) (skip returned : Nat) :
    (limitFrom p skip returned c).Keeps W :=
  Confined.limitFrom h trivial p skip returned

theorem Keeps.skipThenLimit (h : c.Keeps W) (p : ScanProperties) (t : Continuation) :
    (skipThenLimit p t c).Keeps W :=
  Confined.skipThenLimit h trivial p trivial

theorem Timely.tryMap (h : c.Timely before after hands) (f : α → Except CursorError β) :
    (c.tryMap f).Timely before after hands := by
  induction c with
  | row v t rest ih =>
    rw [Cursor.tryMap]
    split
    · exact ⟨h.1, h.2.tryMap f⟩
    · trivial
  | stop => exact h
  | fail => trivial
  | consult k ih => exact fun w hw => ih w (h w hw)
  | commit w c ih =>
    exact h.imp (And.imp_right fun h => Keeps.tryMap h f) (And.imp_right ih)
  | pause wait rest ih => exact ⟨ih () h.1, h.2.tryMap f⟩

/-- Rows are left out by a filter, so it is timely only if none is handed out before. -/
theorem Timely.filter (h : c.Timely before after hands) (hhands : ¬ hands) (p : α → Bool) :
    (c.filter p).Timely before after hands := by
  induction c with
  | row v t rest ih => exact absurd h.1 hhands
  | stop => exact h
  | fail => trivial
  | consult k ih => exact fun w hw => ih w (h w hw)
  | commit w c ih =>
    exact h.imp (And.imp_right fun h => Keeps.filter h p) (And.imp_right ih)
  | pause wait rest ih => exact ⟨ih () h.1, h.2.filter p⟩

theorem timely_stopFor {r : StopReason} (h : r ≠ .timeLimit) (t : Continuation) :
    (stopFor r t : Cursor α).Timely before after hands := by
  rw [stopFor]
  split
  · exact h
  · intro heq
    cases heq

theorem Timely.limitFrom (h : c.Timely before after hands) (p : ScanProperties) {skip : Nat}
    (hskip : skip = 0 ∨ ¬ hands) (returned : Nat) :
    (limitFrom p skip returned c).Timely before after hands := by
  induction c with
  | row v t rest ih =>
    obtain rfl := hskip.resolve_right (absurd h.1)
    refine ⟨h.1, ?_⟩
    dsimp only
    split
    · exact confined_stopFor trivial trivial _
    · exact h.2.limitFrom _ _ _
  | stop => exact h
  | fail => trivial
  | consult k ih => exact fun w hw => ih w (h w hw)
  | commit w c ih =>
    exact h.imp (And.imp_right fun h => Keeps.limitFrom h _ _ _) (And.imp_right ih)
  | pause wait rest ih => exact ⟨ih () h.1, h.2.limitFrom _ _ _⟩

/-- Before its first row a cursor can only stop for its returned-row limit. -/
theorem eq_of_reachedLimit_zero {p : ScanProperties} {r : StopReason}
    (h : reachedLimit p 0 = some r) : r = .returnLimit := by
  unfold reachedLimit at h
  split at h
  · exact (Option.some.inj h).symm
  · simp at h

/-- Limits keep a cursor timely that skips no row. -/
theorem Timely.skipThenLimit (h : c.Timely before after hands) {p : ScanProperties}
    {t : Continuation} (hskip : (t.isStart = true → p.skip = 0) ∨ ¬ hands) :
    (skipThenLimit p t c).Timely before after hands := by
  rw [Cursor.skipThenLimit]
  split
  · rename_i r hr
    rw [eq_of_reachedLimit_zero hr]
    exact timely_stopFor (by decide) t
  · refine h.limitFrom p (hskip.imp_left fun hskip => ?_) 0
    split
    · exact hskip (by assumption)
    · rfl

/-! ### Legs -/

namespace Leg

/-- The leg was not stopped for the time limit, and what is still to be asked is timely. -/
def Timely (before after : World → Prop) (hands : Prop) : Leg α → Prop
  | unread _ c => c.Timely before after hands ∧ c.Keeps after
  | waiting _ _ c => c.Timely before after hands ∧ c.Keeps after
  | front _ _ _ _ rest => hands ∧ rest.Keeps after
  | ended r _ => r ≠ .timeLimit
  | failed _ _ => True

variable {l : Leg α}

theorem Timely.keeps (h : l.Timely before after hands) : l.Confined after fun _ => True := by
  cases l with
  | unread | waiting => exact h.2
  | front => exact ⟨trivial, h.2⟩
  | ended | failed => trivial

theorem Timely.of_source? (h : l.Timely before after hands) (hl : l.source? = some c) :
    c.Timely before after hands := by
  cases l with
  | unread | waiting =>
    cases hl
    exact h.1
  | front | ended | failed => cases hl

theorem Timely.read (h : l.Timely before after hands) (key : α → Except CursorError Tuple)
    {w : World} (hw : before w) :
    after (l.read key w).1 ∧ ((l.read key w).2.Confined after fun _ => True) ∨
      before (l.read key w).1 ∧ (l.read key w).2.Timely before after hands := by
  unfold Leg.read
  split
  · exact .inr ⟨hw, h⟩
  · rename_i c hl
    dsimp only
    refine ((h.of_source? hl).poll hw).imp (And.imp_right fun hp => ?_) (And.imp_right fun hp => ?_)
    all_goals
      generalize (c.poll w).2 = progress at hp ⊢
      unfold answered
      split
    · split
      · exact ⟨trivial, hp⟩
      · trivial
    · trivial
    · trivial
    · exact hp
    · split
      · exact hp
      · trivial
    · exact hp
    · trivial
    · exact hp

theorem Timely.hands_of_valueIf (h : l.Timely before after hands) {p : Tuple → Bool} {v : α}
    (hv : l.valueIf p = some v) : hands := by
  cases l with
  | front => exact h.1
  | unread | waiting | ended | failed => cases hv

theorem Timely.ne_of_limit? (h : l.Timely before after hands) {r : StopReason}
    (hr : l.limit? = some r) : r ≠ .timeLimit := by
  cases l with
  | ended r' t =>
    obtain ⟨hr', -⟩ := Option.filter_eq_some_iff.1 hr
    cases hr'
    exact h
  | unread | waiting | front | failed => cases hr

end Leg

namespace Legs

/-- All legs are timely. -/
def Timely (before after : World → Prop) (hands : Prop) (legs : Legs α) : Prop :=
  ∀ l ∈ legs, l.Timely before after hands

variable {legs : Legs α}

theorem Timely.keeps (h : Timely before after hands legs) :
    Confined after (fun _ => True) legs :=
  fun l hl => (h l hl).keeps

theorem Timely.read (h : Timely before after hands legs) {key : α → Except CursorError Tuple}
    {places : List Nat} {w w' : World} (hw : before w) {result : Except CursorError (Legs α)}
    (hread : legs.read key places w = (w', result)) :
    (after w' ∧ ∀ legs', result = .ok legs' → Confined after (fun _ => True) legs') ∨
      before w' ∧ ∀ legs', result = .ok legs' → Timely before after hands legs' := by
  induction places generalizing legs w with
  | nil =>
    cases hread
    refine .inr ⟨hw, fun legs' heq => ?_⟩
    cases heq
    exact h
  | cons place places ih =>
    rw [Legs.read] at hread
    split at hread
    · exact ih h hw hread
    · rename_i leg hleg
      have hstep := (h leg (List.mem_of_getElem? hleg)).read key hw
      dsimp only at hread
      split at hread
      · cases hread
        refine hstep.imp (And.imp_right fun _ legs' heq => ?_) (And.imp_right fun _ legs' heq => ?_)
        all_goals cases heq
      · -- once a leg has brought about the second kind, the others keep to it
        rcases hstep with ⟨hw', hleg'⟩ | ⟨hw', hleg'⟩
        · refine .inl (Confined.read (fun l hl => ?_) hw' hread)
          rcases List.mem_or_eq_of_mem_set hl with hl | rfl
          · exact (h l hl).keeps
          · exact hleg'
        · refine ih (fun l hl => ?_) hw' hread
          rcases List.mem_or_eq_of_mem_set hl with hl | rfl
          · exact h l hl
          · exact hleg'

theorem Timely.hands_of_valueIf (h : Timely before after hands legs) {p : Tuple → Bool} {v : α}
    (hv : legs.valueIf p = some v) : hands := by
  obtain ⟨l, hl, hv⟩ := List.exists_of_findSome?_eq_some hv
  exact (h l hl).hands_of_valueIf hv

theorem Timely.ne_of_limit? (h : Timely before after hands legs) {r : StopReason}
    (hr : legs.limit? = some r) : r ≠ .timeLimit := by
  obtain ⟨l, hl, hr⟩ := List.exists_of_findSome?_eq_some hr
  exact (h l hl).ne_of_limit? hr

end Legs

/-! ### Merges -/

namespace Merge

variable {m : Merge α} {legs : Legs α}

/-- A merge stops for what a leg of it stopped for. -/
theorem limit?_of_verdict_stop {r : StopReason} (h : m.verdict legs = .stop r) :
    r = .sourceExhausted ∨ legs.limit? = some r := by
  unfold verdict at h
  split at h
  · split at h
    · cases h
      exact .inr (by assumption)
    · cases h
      exact .inl rfl
    · cases h
  · split at h
    · cases h
      exact .inl rfl
    · split at h
      · cases h
        exact .inr (by assumption)
      · cases h
        exact .inl rfl
      · split at h <;> cases h

theorem verdict_ne_pass (hop : m.operation = .union) (key : Tuple) :
    m.verdict legs ≠ .pass key := by
  unfold verdict
  rw [hop]
  dsimp only
  split <;> exact nofun

theorem keeps_rows (lastRead : List Nat) (h : Legs.Confined W (fun _ => True) legs) :
    (m.rows lastRead legs).Keeps W :=
  confined_rows trivial (fun _ => trivial) lastRead h

/-- A union of timely legs is timely, and so is any merge of legs that hand out no row before. -/
theorem timely_rows (hop : m.operation = .union ∨ ¬ hands) (lastRead : List Nat)
    (h : Legs.Timely before after hands legs) :
    (m.rows lastRead legs).Timely before after hands := by
  induction legs using (Legs.wellFoundedRelation (α := α)).wf.induction generalizing lastRead with
  | h legs ih =>
    rw [rows]
    refine timely_consult fun w hw => ?_
    split
    · rename_i place places due
      have hdue := Legs.isDue_of_due_eq_cons due
      split
      · rename_i w' e reading
        exact (h.read hw reading).imp (And.imp_right fun _ => trivial)
          (And.imp_right fun _ => trivial)
      · rename_i w' legs' reading
        have below := Legs.below_read hdue reading
        refine (h.read hw reading).imp (And.imp_right fun hlegs => ?_)
          (And.imp_right fun hlegs => ?_)
        · have hlegs := hlegs legs' rfl
          split
          · exact keeps_rows _ hlegs
          · exact keeps_rows _ hlegs
        · have hlegs := hlegs legs' rfl
          split
          · exact ih _ below _ hlegs
          · exact ⟨ih _ below _ hlegs, keeps_rows _ hlegs.keeps⟩
    · split
      · rename_i r hverdict
        refine timely_stopFor ?_ _
        rcases limit?_of_verdict_stop hverdict with rfl | hr
        · decide
        · exact h.ne_of_limit? hr
      · split
        · rename_i taken
          exact ⟨h.hands_of_valueIf taken, keeps_rows _ (h.keeps.useIf _)⟩
        · intro heq
          cases heq
      · rename_i key hverdict
        split
        · rename_i passed
          rcases hop with hop | hhands
          · exact absurd hverdict (verdict_ne_pass hop key)
          · exact absurd (h.hands_of_valueIf passed) hhands
        · intro heq
          cases heq

theorem opensTo_openLeg_timely {opener : OpenLeg α}
    (h : ∀ c, OpensTo (fun rows => rows.Timely before after hands ∧ rows.Keeps after) (opener c))
    (c : Continuation) :
    OpensTo (fun l => l.Timely before after hands) (openLeg opener c) := by
  unfold openLeg
  split
  · intro heq
    cases heq
  · have hopened := h c
    generalize opener c = opened at hopened
    cases opened with
    | ok rows => exact hopened
    | error e => exact hopened

theorem opensTo_openAt_timely (hop : m.operation = .union ∨ ¬ hands) {openers : List (OpenLeg α)}
    (h : ∀ opener ∈ openers, ∀ c,
      OpensTo (fun rows => rows.Timely before after hands ∧ rows.Keeps after) (opener c))
    (c : Continuation) :
    OpensTo (fun rows => rows.Timely before after hands ∧ rows.Keeps after)
      (m.openAt openers c) := by
  unfold openAt
  split
  · refine ⟨fun heq => ?_, trivial⟩
    cases heq
  · refine (opensTo_resume m _ c).bind fun tokens _ => ?_
    have legs : OpensTo (Legs.Timely before after hands)
        ((openers.zip tokens).mapM fun x => openLeg x.1 x.2) :=
      OpensTo.mapM fun x hx => opensTo_openLeg_timely (h x.1 (List.of_mem_zip hx).1) x.2
    exact legs.bind fun legs hlegs => ⟨timely_rows hop [] hlegs, keeps_rows [] hlegs.keeps⟩

end Merge

/-! ### Cursors that know no time limit -/

/-- Wherever it is, the cursor does not stop for the time limit. -/
def Untimed : Cursor α → Prop
  | row _ _ rest => (rest ()).Untimed
  | stop r _ => r ≠ .timeLimit
  | fail _ => True
  | consult k => ∀ w, (k w).Untimed
  | commit _ c => c.Untimed
  | pause _ rest => (rest ()).Untimed

theorem untimed_perform {act : World → World × β} {go : β → Cursor α} (h : ∀ x, (go x).Untimed) :
    (perform act go).Untimed :=
  fun w => h (act w).2

theorem Untimed.tryMap (h : c.Untimed) (f : α → Except CursorError β) : (c.tryMap f).Untimed := by
  induction c with
  | row v t rest ih =>
    rw [Cursor.tryMap]
    split
    · exact ih () h
    · trivial
  | stop => exact h
  | fail => trivial
  | consult k ih => exact fun w => ih w (h w)
  | commit w c ih => exact ih h
  | pause wait rest ih => exact ih () h

theorem KeyScan.untimed_pairs (s : KeyScan) (count : Nat) (st : State) :
    (s.pairs count st).Untimed := by
  induction count generalizing st with
  | zero =>
    intro h
    cases h
  | succ count ih =>
    rw [pairs]
    refine untimed_perform fun fetched => ?_
    split
    · trivial
    · split
      · intro h
        cases h
      · refine untimed_perform fun allowed => ?_
        split
        · exact ih _
        · intro h
          cases h

theorem KeyScan.untimed_openAt (s : KeyScan) (w : World) (c : Continuation) :
    OpensTo Untimed (s.openAt w c) := by
  rw [openAt.eq_def]
  split
  · intro h
    cases h
  · split
    · rfl
    · rw [OpensTo]
      exact untimed_pairs _ _ _

/-- Whatever it skips, such a cursor under limits has a row when it stops for its time limit. -/
theorem Untimed.run_limitFrom (h : c.Untimed) (p : ScanProperties) (skip returned : Nat)
    {w : World} {t : Continuation}
    (hstop : ((limitFrom p skip returned c).run w).2.2 = .stopped .timeLimit t) :
    ((limitFrom p skip returned c).run w).2.1 ≠ [] := by
  induction c generalizing skip returned w with
  | row v u rest ih =>
    rw [limitFrom] at hstop ⊢
    split
    · exact List.cons_ne_nil _ _
    · rename_i hskip
      rw [if_neg hskip] at hstop
      exact ih () h _ _ hstop
  | stop r u =>
    cases hstop
    exact absurd rfl h
  | fail => cases hstop
  | consult k ih => exact ih w (h w) _ _ hstop
  | commit w' c ih => exact ih h _ _ hstop
  | pause wait rest ih => exact ih () h _ _ hstop

theorem Untimed.run_skipThenLimit (h : c.Untimed) (p : ScanProperties) (u : Continuation)
    {w : World} {t : Continuation}
    (hstop : ((skipThenLimit p u c).run w).2.2 = .stopped .timeLimit t) :
    ((skipThenLimit p u c).run w).2.1 ≠ [] := by
  rw [skipThenLimit] at hstop ⊢
  split
  · rename_i r hr
    rw [hr, eq_of_reachedLimit_zero hr] at hstop
    cases hstop
  · rename_i hr
    rw [hr] at hstop
    exact h.run_limitFrom p _ 0 hstop

end Cursor

end ResumableQuery
