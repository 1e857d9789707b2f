import ResumableQuery.Cursor.Merge
import ResumableQuery.Proofs.Cursor.ChangingStore
import ResumableQuery.Proofs.World.Content

/-!
# What a cursor is confined to

A continuation can be forged, so nothing is known of the state from which a cursor goes on.  What
its rows can be does not depend on that state, but on how the cursor is built.  `Confined` says so
of everything that a cursor may still hand out while the worlds in which it is asked satisfy a
condition.  A scan is confined to its range from any last key on, adapters keep or narrow what their
source is confined to, and a merge is confined to what all of its legs are.

Opening a cursor is refused for what the caller supplied or not at all (`OpensTo`).
-/

namespace ResumableQuery

/-- All pairs of a store are among some others. -/
def World.HoldsOnly (name : StoreName) (stored : Bytes × Bytes → Prop) (w : World) : Prop :=
  ∀ e ∈ w.store name, stored e

theorem World.HoldsOnly.later {name : StoreName} {stored : Bytes × Bytes → Prop} {w w' : World}
    (h : w.HoldsOnly name stored) (hw : w.SameContent w') : w'.HoldsOnly name stored := by
  intro e he
  rw [hw.store] at he
  exact h e he

/-! ### Openings -/

/-- A construction is refused for what the caller supplied, or it has a result of a kind. -/
def OpensTo (Q : β → Prop) : Except CursorError β → Prop
  | .ok x => Q x
  | .error e => e.isInvalidArgument = true

namespace OpensTo

variable {Q : β → Prop} {R : γ → Prop} {x : Except CursorError β}

theorem mono (h : OpensTo Q x) {Q' : β → Prop} (hQ : ∀ b, Q b → Q' b) : OpensTo Q' x := by
  cases x with
  | ok b => exact hQ b h
  | error e => exact h

theorem bind (h : OpensTo Q x) {f : β → Except CursorError γ} (hf : ∀ b, Q b → OpensTo R (f b)) :
    OpensTo R (x >>= f) := by
  cases x with
  | ok b => exact hf b h
  | error e => exact h

theorem mapM {f : α → Except CursorError β} {l : List α} (h : ∀ a ∈ l, OpensTo Q (f a)) :
    OpensTo (fun bs => ∀ b ∈ bs, Q b) (l.mapM f) := by
  induction l with
  | nil =>
    intro b hb
    cases hb
  | cons a l ih =>
    rw [List.mapM_cons]
    have others := ih fun a' ha' => h a' (List.mem_cons_of_mem _ ha')
    refine (h a List.mem_cons_self).bind fun b hb => others.bind fun bs hbs => ?_
    exact List.forall_mem_cons.2 ⟨hb, hbs⟩

/-- Either the caller is told so, or there is a result. -/
theorem cases_on (h : OpensTo Q x) :
    (∃ e, x = .error (.invalidArgument e)) ∨ ∃ b, x = .ok b ∧ Q b := by
  cases x with
  | ok b => exact .inr ⟨b, rfl, h⟩
  | error e =>
    cases e with
    | invalidArgument a => exact .inl ⟨a, rfl⟩
    | unusable | closed | failure => cases h

end OpensTo

namespace Cursor

/-- While it is asked in worlds that satisfy `W`, the cursor keeps to such worlds, and it hands out
rows that satisfy `P` and continuations that satisfy `T`. -/
def Confined (W : World → Prop) (P : α → Prop) (T : Continuation → Prop) : Cursor α → Prop
  | row v t rest => P v ∧ T t ∧ (rest ()).Confined W P T
  | stop _ t => T t
  | fail _ => True
  | consult k => ∀ w, W w → (k w).Confined W P T
  | commit w c => W w ∧ c.Confined W P T
  | pause _ rest => (rest ()).Confined W P T

variable {W : World → Prop} {P : α → Prop} {T : Continuation → Prop} {c : Cursor α}

theorem Confined.mono (h : c.Confined W P T) {P' : α → Prop} {T' : Continuation → Prop}
    (hP : ∀ v, P v → P' v) (hT : ∀ t, T t → T' t) : c.Confined W P' T' := by
  induction c with
  | row v t rest ih => exact ⟨hP v h.1, hT t h.2.1, ih () h.2.2⟩
  | stop r t => exact hT t h
  | fail => trivial
  | consult k ih => exact fun w hw => ih w (h w hw)
  | commit w c ih => exact ⟨h.1, ih h.2⟩
  | pause wait rest ih => exact ih () h

theorem confined_consult {k : World → Cursor α} (h : ∀ w, W w → (k w).Confined W P T) :
    (consult k).Confined W P T :=
  h

theorem confined_perform {act : World → World × β} {go : β → Cursor α}
    (hact : ∀ w, W w → W (act w).1) (h : ∀ w, W w → (go (act w).2).Confined W P T) :
    (perform act go).Confined W P T :=
  fun w hw => ⟨hact w hw, h w hw⟩

/-! ### Asking -/

/-- What a reply to a confined cursor can be. -/
def Reply.Confined (W : World → Prop) (P : α → Prop) (T : Continuation → Prop) : Reply α → Prop
  | .row v t rest => P v ∧ T t ∧ rest.Confined W P T
  | .stop _ t => T t
  | .fail _ => True

theorem Confined.next (h : c.Confined W P T) (hawait : ∀ w wait, W w → W (w.await wait))
    {w : World} (hw : W w) : (c.next w).2.Confined W P T := by
  induction c generalizing w with
  | row | stop => exact h
  | fail => trivial
  | consult k ih => exact ih w (h w hw) hw
  | commit w' c ih => exact ih h.2 h.1
  | pause wait rest ih => exact ih () h (hawait w wait hw)

theorem Confined.poll (h : c.Confined W P T) {w : World} (hw : W w) :
    W (c.poll w).1 ∧ match (c.poll w).2 with
      | .ready reply => reply.Confined W P T
      | .pending _ rest => rest.Confined W P T := by
  induction c generalizing w with
  | row | stop => exact ⟨hw, h⟩
  | fail => exact ⟨hw, trivial⟩
  | consult k ih => exact ih w (h w hw) hw
  | commit w' c ih => exact ih h.2 h.1
  | pause wait rest ih => exact ⟨hw, h⟩

/-- Asked in one world after the other, a confined cursor hands out nothing else. -/
theorem Confined.answers (h : c.Confined W P T) (hawait : ∀ w wait, W w → W (w.await wait))
    {ws : List World} (hws : ∀ w ∈ ws, W w) :
    (∀ r ∈ (c.answers ws).1, P r.1 ∧ T r.2) ∧
      ∀ r t, (c.answers ws).2 = some (.stopped r t) → T t := by
  induction ws generalizing c with
  | nil =>
    refine ⟨fun r hr => ?_, fun r t ht => ?_⟩
    · cases hr
    · cases ht
  | cons w ws ih =>
    obtain ⟨hw, hws⟩ := List.forall_mem_cons.1 hws
    have hnext := h.next hawait hw
    rw [Cursor.answers]
    generalize (c.next w).2 = reply at hnext
    cases reply with
    | row v t rest =>
      obtain ⟨hv, ht, hrest⟩ := hnext
      obtain ⟨hrows, hend⟩ := ih hrest hws
      exact ⟨List.forall_mem_cons.2 ⟨⟨hv, ht⟩, hrows⟩, hend⟩
    | stop r t =>
      refine ⟨fun x hx => ?_, fun r' t' ht => ?_⟩
      · cases hx
      · cases ht
        exact hnext
    | fail e =>
      refine ⟨fun x hx => ?_, fun r t ht => ?_⟩
      · cases hx
      · cases ht

/-! ### Scans of stored pairs -/

namespace KeyScan

variable {s : KeyScan} {stored : Bytes × Bytes → Prop} {st st' : State}

/-- What was read and is still to be handed out lies in the range and was stored. -/
def State.Within (s : KeyScan) (stored : Bytes × Bytes → Prop) (st : State) : Prop :=
  ∀ e ∈ st.buffer, stored e ∧ s.range.contains e.1 = true

/-- Whatever the last key is, what is read beyond it lies in the range. -/
theorem mem_scan_remaining {content : Store} {last : Option Bytes} {n : Nat} {e : Bytes × Bytes}
    (h : e ∈ content.scan (s.remaining last) s.reverse n) :
    e ∈ content ∧ s.range.contains e.1 = true := by
  rw [scan_remaining] at h
  obtain ⟨hmem, hcontains⟩ := mem_pending_iff.1 (List.mem_of_mem_take h)
  rw [contains_remaining, Bool.and_eq_true] at hcontains
  exact ⟨hmem, hcontains.1⟩

theorem sameContent_fetch (st : State) (w : World) : w.SameContent (s.fetch st w).1 := by
  have scanned := World.sameContent_scan w s.store (s.remaining st.lastKey) s.reverse s.batch
  unfold fetch
  split
  · split
    · rename_i hscan
      rwa [hscan] at scanned
    · rename_i hscan
      rwa [hscan] at scanned
  · exact .refl w

theorem budgets_fetch (st : State) (w : World) : (s.fetch st w).1.budgets = w.budgets := by
  have scanned := World.budgets_scan w s.store (s.remaining st.lastKey) s.reverse s.batch
  unfold fetch
  split
  · split
    · rename_i hscan
      rwa [hscan] at scanned
    · rename_i hscan
      rwa [hscan] at scanned
  · rfl

/-- A pair is taken from the budget, or it is refused and nothing happens. -/
theorem charge_cases (fresh : Bool) (w : World) :
    (∃ b, b.scanned = (w.budget s.budget).scanned + 1 ∧
      s.charge fresh w = (w.setBudget s.budget b, true)) ∨ s.charge fresh w = (w, false) := by
  unfold charge
  cases fresh with
  | true => exact .inl ⟨_, rfl, rfl⟩
  | false =>
    rw [if_neg Bool.false_ne_true]
    split
    · rename_i b hb
      refine .inl ⟨b, ?_, rfl⟩
      unfold Budget.tryScan at hb
      split at hb
      · cases hb
        rfl
      · split at hb
        · cases hb
          rfl
        · cases hb
    · exact .inr rfl

theorem State.Within.fetch (h : st.Within s stored) {w : World} (hw : w.HoldsOnly s.store stored)
    (hfetch : (s.fetch st w).2 = .ok st') : st'.Within s stored := by
  unfold KeyScan.fetch at hfetch
  split at hfetch
  · rw [World.scan] at hfetch
    cases hcall : w.call with
    | error e =>
      rw [hcall] at hfetch
      cases hfetch
    | ok w' =>
      rw [hcall] at hfetch
      cases hfetch
      intro e he
      obtain ⟨hmem, hrange⟩ := mem_scan_remaining he
      rw [(World.sameContent_call hcall).store] at hmem
      exact ⟨hw e hmem, hrange⟩
  · cases hfetch
    exact h

theorem sameContent_charge (fresh : Bool) (w : World) : w.SameContent (s.charge fresh w).1 := by
  unfold charge
  dsimp only
  split
  · exact World.sameContent_setBudget ..
  · split
    · exact World.sameContent_setBudget ..
    · exact .refl w

theorem confined_pairs (count : Nat) (h : st.Within s stored) :
    (s.pairs count st).Confined (World.HoldsOnly s.store stored)
      (fun e => stored e ∧ s.range.contains e.1 = true) fun _ => True := by
  induction count generalizing st with
  | zero => trivial
  | succ count ih =>
    rw [pairs]
    refine confined_perform (fun w hw => hw.later (sameContent_fetch st w)) fun w hw => ?_
    cases hfetch : (s.fetch st w).2 with
    | error e => trivial
    | ok st' =>
      have hst' := h.fetch hw hfetch
      dsimp only
      split
      · trivial
      · rename_i key value buffer hbuffer
        rw [State.Within, hbuffer] at hst'
        obtain ⟨first, others⟩ := List.forall_mem_cons.1 hst'
        refine confined_perform (fun w' hw' => hw'.later (sameContent_charge st'.fresh w'))
          fun w' hw' => ?_
        split
        · exact ⟨first, trivial, ih others⟩
        · trivial

theorem opensTo_openAt (s : KeyScan) (stored : Bytes × Bytes → Prop) (w : World)
    (c : Continuation) : OpensTo (fun pairs => pairs.Confined (World.HoldsOnly s.store stored)
      (fun e => stored e ∧ s.range.contains e.1 = true) fun _ => True) (s.openAt w c) := by
  rw [openAt.eq_def]
  split
  · trivial
  · split
    · rfl
    · refine confined_pairs (s := { s with batch := max 1 s.batch }) _ fun e he => ?_
      cases he

end KeyScan

/-! ### Adapters -/

theorem Confined.tryMap (h : c.Confined W P T) (f : α → Except CursorError β) :
    (c.tryMap f).Confined W (fun u => ∃ v, P v ∧ f v = .ok u) T := by
  induction c with
  | row v t rest ih =>
    rw [Cursor.tryMap]
    split
    · rename_i u hu
      exact ⟨⟨v, h.1, hu⟩, h.2.1, ih () h.2.2⟩
    · trivial
  | stop => exact h
  | fail => trivial
  | consult k ih => exact fun w hw => ih w (h w hw)
  | commit w c ih => exact ⟨h.1, ih h.2⟩
  | pause wait rest ih => exact ih () h

theorem Confined.filter (h : c.Confined W P T) (p : α → Bool) :
    (c.filter p).Confined W (fun v => P v ∧ p v = true) T := by
  induction c with
  | row v t rest ih =>
    rw [Cursor.filter]
    split
    · rename_i hv
      exact ⟨⟨h.1, hv⟩, h.2.1, ih () h.2.2⟩
    · exact ih () h.2.2
  | stop => exact h
  | fail => trivial
  | consult k ih => exact fun w hw => ih w (h w hw)
  | commit w c ih => exact ⟨h.1, ih h.2⟩
  | pause wait rest ih => exact ih () h

theorem confined_stopFor {t : Continuation} (hdone : T .done) (ht : T t) (r : StopReason) :
    (stopFor r t : Cursor α).Confined W P T := by
  rw [stopFor]
  split
  · exact ht
  · exact hdone

theorem Confined.limitFrom (h : c.Confined W P T) (hdone : T .done) (p : ScanProperties)
    (skip returned : Nat) : (limitFrom p skip returned c).Confined W P T := by
  induction c generalizing skip returned with
  | row v t rest ih =>
    obtain ⟨hv, ht, hrest⟩ := h
    rw [Cursor.limitFrom]
    split
    · refine ⟨hv, ht, ?_⟩
      dsimp only
      split
      · exact confined_stopFor hdone ht _
      · exact ih () hrest _ _
    · exact ih () hrest _ _
  | stop => exact h
  | fail => trivial
  | consult k ih => exact fun w hw => ih w (h w hw) _ _
  | commit w c ih => exact ⟨h.1, ih h.2 _ _⟩
  | pause wait rest ih => exact ih () h _ _

theorem Confined.skipThenLimit (h : c.Confined W P T) (hdone : T .done) (p : ScanProperties)
    {t : Continuation} (ht : T t) : (skipThenLimit p t c).Confined W P T := by
  rw [Cursor.skipThenLimit]
  split
  · exact confined_stopFor hdone ht _
  · exact h.limitFrom hdone ..

/-! ### Legs -/

namespace Leg

/-- The row that was read ahead satisfies `P`, and what is still to be asked is confined to it. -/
def Confined (W : World → Prop) (P : α → Prop) : Leg α → Prop
  | unread _ c => c.Confined W P fun _ => True
  | waiting _ _ c => c.Confined W P fun _ => True
  | front _ v _ _ rest => P v ∧ rest.Confined W P fun _ => True
  | ended _ _ => True
  | failed _ _ => True

theorem Confined.of_source? {l : Leg α} (h : l.Confined W P) (hl : l.source? = some c) :
    c.Confined W P fun _ => True := by
  cases l with
  | unread | waiting =>
    cases hl
    exact h
  | front | ended | failed => cases hl

theorem Confined.read {l : Leg α} (h : l.Confined W P) (key : α → Except CursorError Tuple)
    {w : World} (hw : W w) : W (l.read key w).1 ∧ (l.read key w).2.Confined W P := by
  unfold Leg.read
  split
  · exact ⟨hw, h⟩
  · rename_i c hl
    obtain ⟨hw', hpoll⟩ := (h.of_source? hl).poll hw
    refine ⟨hw', ?_⟩
    dsimp only
    generalize (c.poll w).2 = progress at hpoll
    unfold answered
    split
    · split
      · exact ⟨hpoll.1, hpoll.2.2⟩
      · trivial
    · trivial
    · trivial
    · exact hpoll

theorem Confined.useIf {l : Leg α} (h : l.Confined W P) (p : Tuple → Bool) :
    (l.useIf p).Confined W P := by
  cases l with
  | front t v k next rest =>
    rw [Leg.useIf]
    split
    · exact h.2
    · exact h
  | unread | waiting | ended | failed => exact h

theorem Confined.of_valueIf {l : Leg α} (h : l.Confined W P) {p : Tuple → Bool} {v : α}
    (hv : l.valueIf p = some v) : P v := by
  cases l with
  | front t u k next rest =>
    rw [valueIf] at hv
    split at hv
    · cases hv
      exact h.1
    · cases hv
  | unread | waiting | ended | failed => cases hv

end Leg

namespace Legs

/-- All legs are confined to `P`. -/
def Confined (W : World → Prop) (P : α → Prop) (legs : Legs α) : Prop :=
  ∀ l ∈ legs, l.Confined W P

variable {legs legs' : Legs α}

theorem Confined.read (h : Confined W P legs) {key : α → Except CursorError Tuple}
    {places : List Nat} {w w' : World} (hw : W w) {result : Except CursorError (Legs α)}
    (hread : legs.read key places w = (w', result)) :
    W w' ∧ ∀ legs', result = .ok legs' → Confined W P legs' := by
  induction places generalizing legs w with
  | nil =>
    cases hread
    refine ⟨hw, fun legs' heq => ?_⟩
    cases heq
    exact h
  | cons place places ih =>
    rw [Legs.read] at hread
    split at hread
    · exact ih h hw hread
    · rename_i leg hleg
      obtain ⟨hw', hleg'⟩ := (h leg (List.mem_of_getElem? hleg)).read key hw
      dsimp only at hread
      split at hread
      · cases hread
        refine ⟨hw', fun legs' heq => ?_⟩
        cases heq
      · refine ih (fun l hl => ?_) hw' hread
        rcases List.mem_or_eq_of_mem_set hl with hl | rfl
        · exact h l hl
        · exact hleg'

theorem Confined.useIf (h : Confined W P legs) (p : Tuple → Bool) :
    Confined W P (legs.useIf p) := by
  intro used hused
  obtain ⟨l, hl, rfl⟩ := List.mem_map.1 hused
  exact (h l hl).useIf p

theorem Confined.of_valueIf (h : Confined W P legs) {p : Tuple → Bool} {v : α}
    (hv : legs.valueIf p = some v) : P v := by
  obtain ⟨l, hl, hv⟩ := List.exists_of_findSome?_eq_some hv
  exact (h l hl).of_valueIf hv

end Legs

/-! ### Merges -/

namespace Merge

variable {m : Merge α}

theorem confined_rows (hdone : T .done) (hT : ∀ legs, T (m.position legs)) (lastRead : List Nat)
    {legs : Legs α} (h : Legs.Confined W P legs) : (m.rows lastRead legs).Confined W P T := by
  induction legs using (Legs.wellFoundedRelation (α := α)).wf.induction generalizing lastRead with
  | h legs ih =>
    rw [rows]
    refine confined_consult fun w hw => ?_
    split
    · rename_i place places due
      have hdue := Legs.isDue_of_due_eq_cons due
      split
      · rename_i w' e reading
        exact ⟨(h.read hw reading).1, trivial⟩
      · rename_i w' legs' reading
        obtain ⟨hw', hlegs⟩ := h.read hw reading
        have below := Legs.below_read hdue reading
        refine ⟨hw', ?_⟩
        split
        · exact ih _ below _ (hlegs legs' rfl)
        · exact ih _ below _ (hlegs legs' rfl)
    · split
      · exact confined_stopFor hdone (hT legs) _
      · split
        · rename_i taken
          exact ⟨h.of_valueIf taken, hT _, ih _ (Legs.below_useIf taken) _ (h.useIf _)⟩
        · exact hdone
      · split
        · rename_i passed
          exact ih _ (Legs.below_useIf passed) _ (h.useIf _)
        · exact hdone

theorem opensTo_resume (m : Merge α) (count : Nat) (c : Continuation) :
    OpensTo (fun _ => True) (m.resume count c) := by
  unfold resume
  split
  · rfl
  · trivial
  · split
    · rfl
    · split
      · rfl
      · split
        · rfl
        · trivial

theorem opensTo_openLeg {opener : OpenLeg α}
    (h : ∀ c, OpensTo (fun rows => rows.Confined W P fun _ => True) (opener c)) (c : Continuation) :
    OpensTo (fun l => l.Confined W P) (openLeg opener c) := by
  unfold openLeg
  split
  · trivial
  · have hopened := h c
    generalize opener c = opened at hopened
    cases opened with
    | ok rows => exact hopened
    | error e => exact hopened

/-- A merge is confined to what all of its legs are confined to. -/
theorem opensTo_openAt (hdone : T .done) (hT : ∀ legs, T (m.position legs))
    {openers : List (OpenLeg α)}
    (h : ∀ opener ∈ openers, ∀ c, OpensTo (fun rows => rows.Confined W P fun _ => True) (opener c))
    (c : Continuation) :
    OpensTo (fun rows => rows.Confined W P T) (m.openAt openers c) := by
  unfold openAt
  split
  · exact hdone
  · refine (opensTo_resume m _ c).bind fun tokens _ => ?_
    have legs : OpensTo (Legs.Confined W P)
        ((openers.zip tokens).mapM fun x => openLeg x.1 x.2) :=
      OpensTo.mapM fun x hx => opensTo_openLeg (h x.1 (List.of_mem_zip hx).1) x.2
    exact legs.bind fun legs hlegs => confined_rows hdone hT [] hlegs

end Merge

end ResumableQuery.Cursor
