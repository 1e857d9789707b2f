import ResumableQuery.Proofs.Cursor.KeyScan

/-!
# Scans of stores that change

A scan may be asked for each pair in another world: between two pairs, stores are written to and
budgets drawn on.  What it has in its buffer may be gone from the store by then, and what was added
since may not be in it.  Even so it keeps to its range, goes on in its direction, and comes by every
pair that stays where it is.  The invariant is `State.Sound`: pairs that stay and are still to come
are in the buffer, or they come after all of it and there is more to be read.  Reading a batch keeps
it for no other reason than the contract of a store (`Reads`).

A page of a scan takes it from one key to another one (`Covers`), and pages go on where the one
before was left, so what holds of a page holds of all of them together (`Paged.covers`).
-/

namespace ResumableQuery

/-- A store of a name is in order, and holds at least some pairs and at most others. -/
structure World.Holds (name : StoreName) (kept known : Bytes × Bytes → Prop) (w : World) :
    Prop where
  sorted : (w.store name).Sorted
  kept : ∀ e, kept e → e ∈ w.store name
  known : ∀ e ∈ w.store name, known e

theorem World.holds_of_eq {name : StoreName} {content : Store} {w : World} (hs : content.Sorted)
    (hw : w.store name = content) : w.Holds name (· ∈ content) (· ∈ content) where
  sorted := hw ▸ hs
  kept _ he := hw.symm ▸ he
  known _ he := hw ▸ he

namespace Cursor

/-- The answers of a cursor that is asked in one world after the other, up to its end: the rows, and
how it ended if it did. -/
def answers : Cursor α → List World → List (α × Continuation) × Option Ending
  | _, [] => ([], none)
  | c, w :: ws =>
    match (c.next w).2 with
    | .row v t rest => ((v, t) :: (rest.answers ws).1, (rest.answers ws).2)
    | .stop r t => ([], some (.stopped r t))
    | .fail e => ([], some (.failed e))

/-- The continuation at which answers leave a cursor that was opened at another one. -/
def leftAt (c : Continuation) : List (α × Continuation) × Option Ending → Continuation
  | (_, some (.stopped _ t)) => t
  | (rows, _) => (rows.getLast?.map Prod.snd).getD c

theorem leftAt_cons (c : Continuation) (v : α) (t : Continuation) (rows : List (α × Continuation))
    (e : Option Ending) : leftAt c ((v, t) :: rows, e) = leftAt t (rows, e) := by
  have hlast : (((v, t) :: rows).getLast?.map Prod.snd).getD c =
      (rows.getLast?.map Prod.snd).getD t := by
    rw [List.getLast?_cons]
    cases rows.getLast? <;> rfl
  rcases e with _ | (_ | _)
  · exact hlast
  · rfl
  · exact hlast

theorem leftAt_of_stopped {c t : Continuation} {r : StopReason}
    {a : List (α × Continuation) × Option Ending} (h : a.2 = some (.stopped r t)) :
    leftAt c a = t := by
  rcases a with ⟨rows, _⟩
  cases h
  rfl

namespace KeyScan

variable {s : KeyScan} {kept known : Bytes × Bytes → Prop} {w : World} {st st' : State}

/-! ### The contract of a store -/

/-- What a store may answer that is asked for at most some pairs beyond a last key: pairs that it
has there, in the direction of the scan, and if it leaves one out then only one that comes after as
many pairs as it was asked for. -/
structure Reads (s : KeyScan) (content : Store) (last : Option Bytes) (n : Nat)
    (pairs : List (Bytes × Bytes)) : Prop where
  ordered : pairs.Pairwise fun a b => s.comesAfter a.1 b.1 = true
  remaining : ∀ e ∈ pairs, (s.remaining last).contains e.1 = true
  stored : ∀ e ∈ pairs, e ∈ content
  length_le : pairs.length ≤ n
  complete : ∀ e ∈ content, (s.remaining last).contains e.1 = true → e ∉ pairs →
    pairs.length = n ∧ ∀ b ∈ pairs, s.comesAfter b.1 e.1 = true

theorem mem_pending_iff {content : Store} {last : Option Bytes} {e : Bytes × Bytes} :
    e ∈ s.pending content last ↔ e ∈ content ∧ (s.remaining last).contains e.1 = true := by
  rw [pending, List.mem_filter]
  split
  · rw [List.mem_reverse]
  · exact Iff.rfl

theorem pairwise_pending {content : Store} (h : content.Sorted) (last : Option Bytes) :
    (s.pending content last).Pairwise fun a b => s.comesAfter a.1 b.1 = true :=
  (s.pairwise_comesAfter h).filter _

theorem nodup_keys {l : List (Bytes × Bytes)}
    (h : l.Pairwise fun a b => s.comesAfter a.1 b.1 = true) : (l.map Prod.fst).Nodup := by
  refine List.pairwise_map.2 (h.imp fun {a b} hab heq => ?_)
  rw [heq, s.not_comesAfter_self] at hab
  cases hab

/-- Pairs in the direction of the scan are known by what they are. -/
theorem eq_of_pairwise_comesAfter {a b : List (Bytes × Bytes)}
    (ha : a.Pairwise fun x y => s.comesAfter x.1 y.1 = true)
    (hb : b.Pairwise fun x y => s.comesAfter x.1 y.1 = true) (hmem : ∀ e, e ∈ a ↔ e ∈ b) :
    a = b := by
  refine List.Perm.eq_of_pairwise (fun x y _ _ hxy hyx => ?_) ha hb
    ((List.perm_ext_iff_of_nodup (nodup_keys ha).of_map (nodup_keys hb).of_map).2 hmem)
  have := s.comesAfter_trans hxy hyx
  rw [s.not_comesAfter_self] at this
  cases this

theorem reads_take {content : Store} (h : content.Sorted) (last : Option Bytes) (n : Nat) :
    s.Reads content last n ((s.pending content last).take n) := by
  have hordered := pairwise_pending (s := s) h last
  have hsplit := List.take_append_drop n (s.pending content last)
  have hmem {e : Bytes × Bytes} (he : e ∈ (s.pending content last).take n) :=
    mem_pending_iff.1 (List.mem_of_mem_take he)
  refine ⟨hordered.sublist (List.take_sublist _ _), fun e he => (hmem he).2,
    fun e he => (hmem he).1, List.length_take_le _ _, fun e he hr hnot => ?_⟩
  have hdrop : e ∈ (s.pending content last).drop n := by
    have := mem_pending_iff.2 ⟨he, hr⟩
    rw [← hsplit, List.mem_append] at this
    exact this.resolve_left hnot
  refine ⟨?_, fun b hb => ?_⟩
  · have hpos := List.length_pos_of_mem hdrop
    rw [List.length_drop] at hpos
    rw [List.length_take]
    omega
  · rw [← hsplit] at hordered
    exact (List.pairwise_append.1 hordered).2.2 b hb e hdrop

/-- A store has only one answer, so a store that keeps to the contract answers as one here does. -/
theorem Reads.eq_scan {content : Store} {n : Nat} {pairs : List (Bytes × Bytes)}
    {last : Option Bytes} (hs : content.Sorted) (h : s.Reads content last n pairs) :
    pairs = content.scan (s.remaining last) s.reverse n := by
  -- what the answer leaves out comes after it, so together they are all the pairs ahead
  have hsplit : pairs ++ (s.pending content last).filter (· ∉ pairs) = s.pending content last := by
    refine eq_of_pairwise_comesAfter (List.pairwise_append.2 ⟨h.ordered,
      (pairwise_pending hs last).filter _, fun a ha b hb => ?_⟩) (pairwise_pending hs last)
      fun e => ?_
    · obtain ⟨hb, hnot⟩ := List.mem_filter.1 hb
      obtain ⟨hb, hr⟩ := mem_pending_iff.1 hb
      exact (h.complete b hb hr (of_decide_eq_true hnot)).2 a ha
    · rw [List.mem_append, List.mem_filter, decide_eq_true_iff]
      refine ⟨fun he => he.elim (fun he => ?_) And.left, fun he => ?_⟩
      · exact mem_pending_iff.2 ⟨h.stored e he, h.remaining e he⟩
      · by_cases hmem : e ∈ pairs
        · exact .inl hmem
        · exact .inr ⟨he, hmem⟩
  rw [scan_remaining, ← hsplit]
  rcases hrest : (s.pending content last).filter (· ∉ pairs) with _ | ⟨e, rest⟩
  · rw [List.append_nil, List.take_of_length_le h.length_le]
  · obtain ⟨he, hnot⟩ := List.mem_filter.1 (hrest ▸ List.mem_cons_self (a := e) (l := rest))
    obtain ⟨he, hr⟩ := mem_pending_iff.1 he
    rw [← (h.complete e he hr (of_decide_eq_true hnot)).1, List.take_left]

/-! ### One answer -/

/-- What a scan answers that is asked in a world. -/
inductive Step (s : KeyScan) (st : State) (w : World) : Reply (Bytes × Bytes) → Prop
  | fail {e} : Step s st w (.fail e)
  | limit : Step s st w (.stop .scanLimit st.token)
  | dry {st' : State} (fetched : (s.fetch st w).2 = .ok st') (empty : st'.buffer = []) :
      Step s st w (.stop .sourceExhausted .done)
  | pair {st' : State} {k v buffer n} (fetched : (s.fetch st w).2 = .ok st')
      (buffer_eq : st'.buffer = (k, v) :: buffer) :
      Step s st w (.row (k, v) (KeyPosition.mk k).toContinuation
        (s.pairs n ⟨some k, buffer, st'.sourceDone, (KeyPosition.mk k).toContinuation, false⟩))

theorem fetch_cases (h : (s.fetch st w).2 = .ok st') :
    st' = st ∧ (st.buffer = [] → st.sourceDone = true) ∨
      ∃ pairs, ((w.store s.store).Sorted → s.Reads (w.store s.store) st.lastKey s.batch pairs) ∧
        st' = { st with buffer := pairs, sourceDone := pairs.length < s.batch } := by
  unfold fetch at h
  split at h
  · rw [World.scan] at h
    cases hcall : w.call with
    | error e =>
      rw [hcall] at h
      cases h
    | ok w' =>
      have hstore : w'.store s.store = w.store s.store := by
        unfold World.call at hcall
        split at hcall <;> cases hcall <;> rfl
      rw [hcall] at h
      simp only [hstore, scan_remaining, Except.ok.injEq] at h
      exact .inr ⟨_, fun hs => reads_take hs st.lastKey s.batch, h.symm⟩
  · rename_i hread
    cases h
    refine .inl ⟨rfl, fun hnil => ?_⟩
    by_contra hdone
    exact hread (by rw [hnil, Bool.eq_false_iff.2 hdone]; rfl)

theorem step_next (n : Nat) (st : State) (w : World) : s.Step st w ((s.pairs n st).next w).2 := by
  cases n with
  | zero => exact .limit
  | succ n =>
    simp only [pairs, perform, next]
    cases hfetch : (s.fetch st w).2 with
    | error e => exact .fail
    | ok st' =>
      have htoken : st'.token = st.token := by
        rcases fetch_cases hfetch with ⟨rfl, -⟩ | ⟨-, -, rfl⟩ <;> rfl
      dsimp only
      cases hbuffer : st'.buffer with
      | nil => exact .dry hfetch hbuffer
      | cons e buffer =>
        rcases e with ⟨k, v⟩
        simp only [next]
        split
        · exact .pair hfetch hbuffer
        · rw [htoken]
          exact .limit

/-! ### The invariant -/

/-- Between two answers: what is in the buffer is in the range beyond the last key and in order, and
each pair that stays and is still to come is in it, or comes after it and there is more to be
read. -/
structure State.Sound (s : KeyScan) (kept known : Bytes × Bytes → Prop) (st : State) : Prop where
  ordered : st.buffer.Pairwise fun a b => s.comesAfter a.1 b.1 = true
  remaining : ∀ e ∈ st.buffer, (s.remaining st.lastKey).contains e.1 = true
  known : ∀ e ∈ st.buffer, known e
  kept : ∀ e, kept e → (s.remaining st.lastKey).contains e.1 = true →
    e ∈ st.buffer ∨ st.sourceDone = false ∧ ∀ b ∈ st.buffer, s.comesAfter b.1 e.1 = true

theorem sound_of_buffer_eq_nil (hbuffer : st.buffer = []) (hdone : st.sourceDone = false) :
    st.Sound s kept known := by
  refine ⟨?_, ?_, ?_, fun e _ _ => .inr ⟨hdone, ?_⟩⟩ <;> rw [hbuffer]
  · exact .nil
  all_goals exact fun e he => by cases he

/-- Reading the next batch keeps the invariant, and leaves nothing in the buffer only if there is
nothing more to be read. -/
theorem State.Sound.fetch (h : st.Sound s kept known) (hb : 1 ≤ s.batch)
    (hw : w.Holds s.store kept known) (hfetch : (s.fetch st w).2 = .ok st') :
    st'.Sound s kept known ∧ st'.lastKey = st.lastKey ∧
      (st'.buffer = [] → st'.sourceDone = true) := by
  rcases fetch_cases hfetch with ⟨rfl, hdone⟩ | ⟨pairs, hreads, rfl⟩
  · exact ⟨h, rfl, hdone⟩
  · have hreads := hreads hw.sorted
    refine ⟨⟨hreads.ordered, hreads.remaining, fun e he => hw.known e (hreads.stored e he),
      fun e he hr => ?_⟩, rfl, fun hnil => decide_eq_true ?_⟩
    · by_cases hmem : e ∈ pairs
      · exact .inl hmem
      · obtain ⟨hfull, hafter⟩ := hreads.complete e (hw.kept e he) hr hmem
        exact .inr ⟨decide_eq_false (by omega), hafter⟩
    · rw [show pairs = [] from hnil]
      exact hb

theorem comesAfter_of_remaining {k k' : Bytes}
    (h : (s.remaining (some k)).contains k' = true) : s.comesAfter k k' = true := by
  rw [contains_remaining, Option.all_some] at h
  exact (Bool.and_eq_true_iff.1 h).2

/-- What is left beyond a key that is left is left. -/
theorem remaining_of_remaining {last : Option Bytes} {k k' : Bytes}
    (hk : (s.remaining last).contains k = true)
    (h : (s.remaining (some k)).contains k' = true) : (s.remaining last).contains k' = true := by
  have hafter := comesAfter_of_remaining h
  rw [contains_remaining] at hk h ⊢
  refine Bool.and_eq_true_iff.2 ⟨(Bool.and_eq_true_iff.1 h).1, ?_⟩
  cases last with
  | none => rfl
  | some last => exact s.comesAfter_trans (Bool.and_eq_true_iff.1 hk).2 hafter

theorem remaining_some {last : Option Bytes} {k k' : Bytes}
    (h : (s.remaining last).contains k' = true) (hafter : s.comesAfter k k' = true) :
    (s.remaining (some k)).contains k' = true := by
  rw [contains_remaining] at h ⊢
  exact Bool.and_eq_true_iff.2 ⟨(Bool.and_eq_true_iff.1 h).1, hafter⟩

section Pair

variable {e : Bytes × Bytes} {buffer : List (Bytes × Bytes)} (h : st.Sound s kept known)
  (hbuffer : st.buffer = e :: buffer)

include h hbuffer

/-- Handing out the first pair of the buffer keeps the invariant. -/
theorem State.Sound.pair (token : Continuation) (fresh : Bool) :
    (State.mk (some e.1) buffer st.sourceDone token fresh).Sound s kept known := by
  have hordered := h.ordered
  have hremaining := h.remaining
  have hknown := h.known
  rw [hbuffer] at hordered hremaining hknown
  obtain ⟨hfirst, hordered⟩ := List.pairwise_cons.1 hordered
  refine ⟨hordered, fun b hb => remaining_some (hremaining b (List.mem_cons_of_mem _ hb))
    (hfirst b hb), fun b hb => hknown b (List.mem_cons_of_mem _ hb), fun x hx hr => ?_⟩
  have hafter := comesAfter_of_remaining hr
  rcases h.kept x hx (remaining_of_remaining (hremaining e List.mem_cons_self) hr) with
    hmem | ⟨hdone, hall⟩
  · rw [hbuffer] at hmem
    rcases List.mem_cons.1 hmem with rfl | hmem
    · rw [s.not_comesAfter_self] at hafter
      cases hafter
    · exact .inl hmem
  · refine .inr ⟨hdone, fun b hb => hall b ?_⟩
    rw [hbuffer]
    exact List.mem_cons_of_mem _ hb

theorem State.Sound.remaining_first : (s.remaining st.lastKey).contains e.1 = true :=
  h.remaining e (hbuffer ▸ List.mem_cons_self)

/-- A pair that stays is the first one of the buffer, or still to come after it. -/
theorem State.Sound.eq_or_remaining {x : Bytes × Bytes} (hx : kept x)
    (hr : (s.remaining st.lastKey).contains x.1 = true) :
    x = e ∨ (s.remaining (some e.1)).contains x.1 = true := by
  rcases h.kept x hx hr with hmem | ⟨-, hall⟩
  · rw [hbuffer] at hmem
    refine (List.mem_cons.1 hmem).imp_right fun hmem => remaining_some hr ?_
    exact (List.pairwise_cons.1 (hbuffer ▸ h.ordered)).1 x hmem
  · exact .inr (remaining_some hr (hall e (hbuffer ▸ List.mem_cons_self)))

end Pair

/-! ### Pages -/

/-- The pairs take a scan from one last key to another: they are in order, they lie between the two,
and no pair that stays lies between that is not among them. -/
structure Covers (s : KeyScan) (kept known : Bytes × Bytes → Prop) (last : Option Bytes)
    (rows : List (Bytes × Bytes)) (last' : Option Bytes) : Prop where
  ordered : rows.Pairwise fun a b => s.comesAfter a.1 b.1 = true
  remaining : ∀ e ∈ rows, (s.remaining last).contains e.1 = true
  known : ∀ e ∈ rows, known e
  after : ∀ e ∈ rows, ∀ k, (s.remaining last').contains k = true → s.comesAfter e.1 k = true
  further : ∀ k, (s.remaining last').contains k = true → (s.remaining last).contains k = true
  kept : ∀ e, kept e → (s.remaining last).contains e.1 = true →
    e ∈ rows ∨ (s.remaining last').contains e.1 = true

variable {last last' last'' : Option Bytes} {rows rows' : List (Bytes × Bytes)}

theorem Covers.nil (last : Option Bytes) : s.Covers kept known last [] last where
  ordered := .nil
  remaining := fun e he => by cases he
  known := fun e he => by cases he
  after := fun e he => by cases he
  further := fun _ hk => hk
  kept := fun _ _ hr => .inr hr

theorem Covers.append (h : s.Covers kept known last rows last')
    (h' : s.Covers kept known last' rows' last'') :
    s.Covers kept known last (rows ++ rows') last'' where
  ordered := List.pairwise_append.2
    ⟨h.ordered, h'.ordered, fun a ha b hb => h.after a ha b.1 (h'.remaining b hb)⟩
  remaining e he := (List.mem_append.1 he).elim (h.remaining e)
    fun he => h.further e.1 (h'.remaining e he)
  known e he := (List.mem_append.1 he).elim (h.known e) (h'.known e)
  after e he k hk := (List.mem_append.1 he).elim (fun he => h.after e he k (h'.further k hk))
    fun he => h'.after e he k hk
  further k hk := h.further k (h'.further k hk)
  kept e he hr := by
    rcases h.kept e he hr with hmem | hr'
    · exact .inl (List.mem_append_left _ hmem)
    · exact (h'.kept e he hr').imp_left (List.mem_append_right _)

theorem State.Sound.covers_first {e : Bytes × Bytes} {buffer : List (Bytes × Bytes)}
    (h : st.Sound s kept known) (hbuffer : st.buffer = e :: buffer) :
    s.Covers kept known st.lastKey [e] (some e.1) where
  ordered := List.pairwise_singleton _ _
  remaining := List.forall_mem_singleton.2 (h.remaining_first hbuffer)
  known := List.forall_mem_singleton.2 (h.known e (hbuffer ▸ List.mem_cons_self))
  after := List.forall_mem_singleton.2 fun _ hk => comesAfter_of_remaining hk
  further _ hk := remaining_of_remaining (h.remaining_first hbuffer) hk
  kept _ hx hr := (h.eq_or_remaining hbuffer hx hr).imp_left List.mem_singleton.2

/-- The continuation is one for a last key. -/
structure Marks (last : Option Bytes) (t : Continuation) : Prop where
  ne_done : t ≠ .done
  position : t.position KeyPosition.ofWire = .ok (last.map KeyPosition.mk)

theorem marks_start : Marks none .start := ⟨(fun h => by cases h), rfl⟩

/-- The keys of pairs fit a machine word in length. -/
def Fits (known : Bytes × Bytes → Prop) : Prop := ∀ e, known e → e.1.length < 2 ^ 64

/-- What answers come to that take a scan from a last key and its continuation to another key.  If
the scan ran dry then no pair is left that stays; otherwise it is left at that key. -/
structure Brings (s : KeyScan) (kept known : Bytes × Bytes → Prop) (last : Option Bytes)
    (t : Continuation) (a : List ((Bytes × Bytes) × Continuation) × Option Ending)
    (last' : Option Bytes) : Prop where
  covers : s.Covers kept known last (a.1.map Prod.fst) last'
  dry (t') : a.2 = some (.stopped .sourceExhausted t') →
    t' = .done ∧ ∀ e, kept e → (s.remaining last').contains e.1 = false
  marks : (∀ t', a.2 ≠ some (.stopped .sourceExhausted t')) → Fits known → Marks last' (leftAt t a)
  token : (∀ t', a.2 ≠ some (.stopped .sourceExhausted t')) →
    leftAt t a = t ∨ ∃ e, known e ∧ leftAt t a = (KeyPosition.mk e.1).toContinuation

theorem brings_nil {t : Continuation} (hmarks : Fits known → Marks last t) {e : Option Ending}
    (hgoing : ∀ t', e ≠ some (.stopped .sourceExhausted t'))
    (hstop : ∀ r t', e = some (.stopped r t') → t' = t) :
    s.Brings kept known last t ([], e) last := by
  have hat : leftAt t (([], e) : List ((Bytes × Bytes) × Continuation) × Option Ending) = t := by
    rcases e with _ | (⟨r, t'⟩ | _)
    · rfl
    · exact hstop r t' rfl
    · rfl
  exact ⟨.nil last, fun t' ht => absurd ht (hgoing t'), fun _ hfit => hat.symm ▸ hmarks hfit,
    fun _ => .inl hat⟩

theorem Brings.cons {e : Bytes × Bytes} {t : Continuation}
    {a : List ((Bytes × Bytes) × Continuation) × Option Ending} (hknown : known e)
    (hfirst : s.Covers kept known last [e] (some e.1))
    (h : s.Brings kept known (some e.1) (KeyPosition.mk e.1).toContinuation a last') :
    s.Brings kept known last t ((e, (KeyPosition.mk e.1).toContinuation) :: a.1, a.2) last' := by
  refine ⟨hfirst.append h.covers, h.dry, fun hgoing hfit => ?_, fun hgoing => ?_⟩
  · rw [leftAt_cons]
    exact h.marks hgoing hfit
  · rw [leftAt_cons]
    rcases h.token hgoing with ht | ht
    · exact .inr ⟨e, hknown, ht⟩
    · exact .inr ht

/-- Whatever happens to other pairs while a scan is asked, it covers those that stay. -/
theorem exists_brings (hb : 1 ≤ s.batch) {ws : List World}
    (hws : ∀ w ∈ ws, w.Holds s.store kept known) (n : Nat) (h : st.Sound s kept known)
    (hmarks : Fits known → Marks st.lastKey st.token) :
    ∃ last, s.Brings kept known st.lastKey st.token ((s.pairs n st).answers ws) last := by
  induction ws generalizing n st with
  | nil => exact ⟨_, brings_nil hmarks (fun t h => by cases h) fun r t h => by cases h⟩
  | cons w ws ih =>
    obtain ⟨hw, hws⟩ := List.forall_mem_cons.1 hws
    have hstep := step_next (s := s) n st w
    rw [answers]
    rcases hreply : ((s.pairs n st).next w).2 with ⟨e, t, rest⟩ | ⟨r, t⟩ | e
    · rw [hreply] at hstep
      cases hstep with
      | @pair st' k v buffer n fetched buffer_eq =>
        obtain ⟨hst', hkey, -⟩ := h.fetch hb hw fetched
        obtain ⟨last, hlast⟩ := ih hws n (hst'.pair buffer_eq _ false) fun hfit =>
          ⟨KeyPosition.toContinuation_ne_done ⟨k⟩, KeyPosition.position_toContinuation
            (hfit (k, v) (hst'.known _ (buffer_eq ▸ List.mem_cons_self)))⟩
        refine ⟨last, hlast.cons (hst'.known _ (buffer_eq ▸ List.mem_cons_self)) ?_⟩
        rw [← hkey]
        exact hst'.covers_first buffer_eq
    · rw [hreply] at hstep
      cases hstep with
      | limit =>
        refine ⟨_, brings_nil hmarks (fun t h => by cases h) fun r t h => ?_⟩
        cases h
        rfl
      | @dry st' fetched empty =>
        obtain ⟨hst', hkey, hdone⟩ := h.fetch hb hw fetched
        refine ⟨st.lastKey, .nil _, fun t ht => ⟨?_, fun e he => Bool.eq_false_iff.2 fun hr => ?_⟩,
          fun hgoing => absurd rfl (hgoing .done), fun hgoing => absurd rfl (hgoing .done)⟩
        · cases ht
          rfl
        · rcases hst'.kept e he (hkey ▸ hr) with hmem | ⟨hnot, -⟩
          · rw [empty] at hmem
            cases hmem
          · rw [hdone empty] at hnot
            cases hnot
    · exact ⟨_, brings_nil hmarks (fun t h => by cases h) fun r t h => by cases h⟩

/-- The scan with other batches and another budget. -/
def withBatches (s : KeyScan) (batch : Nat) (budget : BudgetId) : KeyScan :=
  { s with batch := batch, budget := budget }

theorem Brings.of_withBatches {batch : Nat} {budget : BudgetId} {t : Continuation}
    {a : List ((Bytes × Bytes) × Continuation) × Option Ending}
    (h : (s.withBatches batch budget).Brings kept known last t a last') :
    s.Brings kept known last t a last' :=
  ⟨⟨h.covers.ordered, h.covers.remaining, h.covers.known, h.covers.after, h.covers.further,
    h.covers.kept⟩, h.dry, h.marks, h.token⟩

/-- A scan that is opened at a continuation for a key goes on from there. -/
theorem exists_brings_of_openAt {batch : Nat} {budget : BudgetId} {x : World} {c : Continuation}
    {cur : Cursor (Bytes × Bytes)} (hopen : (s.withBatches batch budget).openAt x c = .ok cur)
    (hc : Marks last c) {ws : List World} (hws : ∀ w ∈ ws, w.Holds s.store kept known) :
    ∃ last', s.Brings kept known last c (cur.answers ws) last' := by
  have hcur : ((s.withBatches (max 1 batch) budget).pairs ((s.withBatches batch budget).mostPairs x)
      ⟨last, [], false, c, true⟩) = cur := by
    have hlast : (last.map KeyPosition.mk).map (·.lastKey) = last := by cases last <;> rfl
    cases c with
    | done => exact absurd rfl hc.ne_done
    | start | resume =>
      simp only [openAt, hc.position, hlast] at hopen
      exact Except.ok.inj hopen
  have hsound : (State.mk last [] false c true).Sound (s.withBatches (max 1 batch) budget) kept
      known := sound_of_buffer_eq_nil rfl rfl
  obtain ⟨last', hlast'⟩ := exists_brings (s := s.withBatches (max 1 batch) budget)
    (Nat.le_max_left 1 batch) hws ((s.withBatches batch budget).mostPairs x) hsound fun _ => hc
  exact ⟨last', hcur ▸ hlast'.of_withBatches⟩

/-! ### Paged scans -/

/-- The pairs of a scan that is read in pages from a continuation on until it runs dry, given the
worlds in which it is asked.  A page may have its own batches and its own budget, and the next one
goes on where it was left, be it for a limit, for a failure or because it was given up. -/
inductive Paged (s : KeyScan) : Continuation → List World → List (Bytes × Bytes) → Prop
  | last {c batch budget x cur ws t} (opens : (s.withBatches batch budget).openAt x c = .ok cur)
      (dry : (cur.answers ws).2 = some (.stopped .sourceExhausted t)) :
      Paged s c ws ((cur.answers ws).1.map Prod.fst)
  | next {c batch budget x cur ws ws' rows}
      (opens : (s.withBatches batch budget).openAt x c = .ok cur)
      (going : ∀ t, (cur.answers ws).2 ≠ some (.stopped .sourceExhausted t))
      (rest : Paged s (leftAt c (cur.answers ws)) ws' rows) :
      Paged s c (ws ++ ws') ((cur.answers ws).1.map Prod.fst ++ rows)

/-- The pages cover the pairs that stay, and none of them is left. -/
theorem Paged.covers {c : Continuation} {ws : List World} (h : s.Paged c ws rows)
    (hfit : Fits known) (hws : ∀ w ∈ ws, w.Holds s.store kept known) (hc : Marks last c) :
    ∃ last', s.Covers kept known last rows last' ∧
      ∀ e, kept e → (s.remaining last').contains e.1 = false := by
  induction h generalizing last with
  | last opens dry =>
    obtain ⟨last', h⟩ := exists_brings_of_openAt opens hc hws
    exact ⟨last', h.covers, (h.dry _ dry).2⟩
  | next opens going _ ih =>
    obtain ⟨hws, hws'⟩ := List.forall_mem_append.1 hws
    obtain ⟨last', h⟩ := exists_brings_of_openAt opens hc hws
    obtain ⟨last'', hcovers, hnone⟩ := ih hws' (h.marks going hfit)
    exact ⟨last'', h.covers.append hcovers, hnone⟩

/-! ### What a caller may count on -/

/-- The pairs of a store that lie in the range, in the direction of the scan. -/
def inRange (s : KeyScan) (content : Store) : List (Bytes × Bytes) :=
  if s.reverse then (content.within s.range).reverse else content.within s.range

/-- Whether a key lies beyond the one that a continuation stands for. -/
def beyond (s : KeyScan) : Continuation → Bytes → Bool
  | .done, _ => false
  | c, k =>
    match c.position KeyPosition.ofWire with
    | .ok p => p.all fun p => s.comesAfter p.lastKey k
    | .error _ => false

theorem pending_none (content : Store) : s.pending content none = s.inRange content := by
  rw [pending, inRange, Store.within]
  cases s.reverse with
  | true => simp only [if_true, List.filter_reverse, remaining]
  | false => rfl

theorem Marks.contains_iff {c : Continuation} (h : Marks last c) (k : Bytes) :
    (s.remaining last).contains k = true ↔ s.range.contains k = true ∧ s.beyond c k = true := by
  have hbeyond : s.beyond c k = last.all (s.comesAfter · k) := by
    cases c with
    | done => exact absurd rfl h.ne_done
    | start | resume =>
      simp only [beyond, h.position]
      cases last <;> rfl
  rw [contains_remaining, Bool.and_eq_true, hbeyond]

/-- A continuation at which a scan can be opened is one for a last key, unless the scan had run
dry. -/
theorem marks_of_openAt {x : World} {c : Continuation} {cur : Cursor (Bytes × Bytes)}
    (hopen : s.openAt x c = .ok cur) : c = .done ∧ cur = exhausted ∨ ∃ last, Marks last c := by
  cases c with
  | done => exact .inl ⟨rfl, (Except.ok.inj hopen).symm⟩
  | start => exact .inr ⟨none, marks_start⟩
  | resume payload =>
    rw [openAt] at hopen
    split at hopen
    · cases hopen
    · rename_i p hp
      refine .inr ⟨p.map (·.lastKey), ⟨(fun h => by cases h), ?_⟩⟩
      rw [hp]
      cases p <;> rfl
    · exact fun h => by cases h

theorem answers_exhausted (ws : List World) :
    (exhausted (α := α)).answers ws = ([], none) ∨
      (exhausted (α := α)).answers ws = ([], some (.stopped .sourceExhausted .done)) := by
  cases ws with
  | nil => exact .inl rfl
  | cons => exact .inr rfl

/-- Over a store that does not change, what a scan has come by and what is ahead of it make up what
was ahead. -/
theorem Covers.append_pending {content : Store} (hs : content.Sorted)
    (h : s.Covers (· ∈ content) (· ∈ content) last rows last') :
    rows ++ s.pending content last' = s.pending content last := by
  refine eq_of_pairwise_comesAfter (List.pairwise_append.2 ⟨h.ordered, pairwise_pending hs last',
    fun a ha b hb => h.after a ha b.1 (mem_pending_iff.1 hb).2⟩) (pairwise_pending hs last)
    fun e => ?_
  rw [List.mem_append, mem_pending_iff, mem_pending_iff]
  refine ⟨fun he => ?_, fun ⟨he, hr⟩ => (h.kept e he hr).imp_right fun hr' => ⟨he, hr'⟩⟩
  rcases he with he | ⟨he, hr⟩
  · exact ⟨h.known e he, h.remaining e he⟩
  · exact ⟨he, h.further e.1 hr⟩

theorem pending_eq_nil {content : Store}
    (h : ∀ e ∈ content, (s.remaining last).contains e.1 = false) :
    s.pending content last = [] := by
  refine List.eq_nil_iff_forall_not_mem.2 fun e he => ?_
  obtain ⟨hmem, hr⟩ := mem_pending_iff.1 he
  rw [h e hmem] at hr
  cases hr

/-- What a scan returns is in its range, in its direction, and beyond the key that it was opened at,
whatever the stores are in which it is asked. -/
theorem returns_in_order {x : World} {c : Continuation} {cur : Cursor (Bytes × Bytes)}
    (hopen : s.openAt x c = .ok cur) {ws : List World}
    (hws : ∀ w ∈ ws, (w.store s.store).Sorted) :
    ((cur.answers ws).1.map Prod.fst).Pairwise (fun a b => s.comesAfter a.1 b.1 = true) ∧
      ∀ e ∈ (cur.answers ws).1.map Prod.fst,
        s.range.contains e.1 = true ∧ s.beyond c e.1 = true := by
  rcases marks_of_openAt hopen with ⟨rfl, rfl⟩ | ⟨last, hc⟩
  · rcases answers_exhausted (α := Bytes × Bytes) ws with h | h <;> rw [h] <;>
      exact ⟨.nil, fun e he => by cases he⟩
  · have hholds : ∀ w ∈ ws, w.Holds s.store (fun _ => False) fun _ => True := fun w hw =>
      ⟨hws w hw, fun _ h => h.elim, fun _ _ => trivial⟩
    have hopen : (s.withBatches s.batch s.budget).openAt x c = .ok cur := hopen
    obtain ⟨last', h⟩ := exists_brings_of_openAt hopen hc hholds
    exact ⟨h.covers.ordered, fun e he => (hc.contains_iff e.1).1 (h.covers.remaining e he)⟩

/-- Over a store that does not change, a scan that is opened where another one was left returns the
pairs of the range that the other one did not come by. -/
theorem reopens_at_rest {content : Store} (hs : content.Sorted) (hk : KeysFit content)
    {x x' : World} {cur : Cursor (Bytes × Bytes)} (hopen : s.openAt x .start = .ok cur)
    {ws : List World}
    (hws : ∀ w ∈ ws, w.store s.store = content) (batch : Nat) (budget : BudgetId)
    (hx' : x'.store s.store = content) {w' : World}
    (hw' : w'.Serves s.store content budget false) :
    ∃ cur' rest,
      (s.withBatches batch budget).openAt x' (leftAt .start (cur.answers ws)) = .ok cur' ∧
      ((Handle.new cur').collect w').2 = .ok (rest, .sourceExhausted, .done) ∧
      (cur.answers ws).1.map Prod.fst ++ rest = s.inRange content := by
  have hopen : (s.withBatches s.batch s.budget).openAt x .start = .ok cur := hopen
  obtain ⟨last, h⟩ := exists_brings_of_openAt hopen marks_start
    fun w hw => World.holds_of_eq hs (hws w hw)
  have hall := h.covers.append_pending hs
  rw [pending_none] at hall
  have hleft : (s.reading content).issued (leftAt .start (cur.answers ws)) ∧
      s.pendingAt content (leftAt .start (cur.answers ws)) = s.pending content last := by
    by_cases hdry : ∃ t, (cur.answers ws).2 = some (.stopped .sourceExhausted t)
    · obtain ⟨t, ht⟩ := hdry
      obtain ⟨rfl, hnone⟩ := h.dry t ht
      have hdone := leftAt_of_stopped (c := .start) ht
      refine ⟨.inr (.inl hdone), ?_⟩
      rw [hdone]
      exact (pending_eq_nil hnone).symm
    · have hgoing := not_exists.1 hdry
      have hmarks := h.marks hgoing fun e he => hk e he
      refine ⟨(h.token hgoing).imp id .inr, ?_⟩
      rw [pendingAt_of_position hmarks.ne_done hmarks.position]
      cases last <;> rfl
  obtain ⟨cur', hcur', hfollows⟩ :=
    follows_openAt (s := s.withBatches batch budget) false hs hk hx' hleft.1
  refine ⟨cur', s.pending content last, hcur', collect_of_ahead hfollows ?_ hw', hall⟩
  exact congrArg Prospect.ofList hleft.2

/-- Over a store that does not change, the pages of a scan make up its range. -/
theorem Paged.eq_inRange {content : Store} (hs : content.Sorted) (hk : KeysFit content)
    {ws : List World} (h : s.Paged .start ws rows) (hws : ∀ w ∈ ws, w.store s.store = content) :
    rows = s.inRange content := by
  obtain ⟨last, hcovers, hnone⟩ := h.covers (fun e he => hk e he)
    (fun w hw => World.holds_of_eq hs (hws w hw)) marks_start
  have hall := hcovers.append_pending hs
  rw [pending_eq_nil hnone, List.append_nil, pending_none] at hall
  exact hall

/-- No page is left to a scan that had run dry. -/
theorem Paged.eq_nil {ws : List World} (h : s.Paged .done ws rows) : rows = [] := by
  generalize hc : Continuation.done = c at h
  induction h with subst hc
  | @last _ _ _ _ _ ws _ opens _ =>
    cases opens
    rcases answers_exhausted (α := Bytes × Bytes) ws with h | h <;> rw [h] <;> rfl
  | @next _ _ _ _ _ ws _ _ opens going _ ih =>
    cases opens
    rcases answers_exhausted (α := Bytes × Bytes) ws with h | h
    · rw [h] at ih
      rw [h, ih rfl]
      rfl
    · rw [h] at going
      exact absurd rfl (going .done)

/-- The pages of a scan return no key twice, and each pair that stays once. -/
theorem Paged.each_once {c : Continuation} {ws : List World} (h : s.Paged c ws rows)
    (hws : ∀ w ∈ ws, (w.store s.store).Sorted ∧ KeysFit (w.store s.store)) :
    (rows.map Prod.fst).Nodup ∧ ∀ k v, s.range.contains k = true → s.beyond c k = true →
      (∀ w ∈ ws, (k, v) ∈ w.store s.store) →
        (k, v) ∈ rows ∧ (rows.map Prod.fst).count k = 1 := by
  have hc : c = .done ∨ ∃ last, Marks last c := by
    cases h with
    | last opens => exact (marks_of_openAt opens).imp_left And.left
    | next opens => exact (marks_of_openAt opens).imp_left And.left
  rcases hc with rfl | ⟨last, hc⟩
  · rw [h.eq_nil]
    exact ⟨.nil, fun k v _ hbeyond => by cases hbeyond⟩
  · have hholds : ∀ w ∈ ws, w.Holds s.store (fun e => ∀ w ∈ ws, e ∈ w.store s.store)
        fun e => e.1.length < 2 ^ 64 := fun w hw =>
      ⟨(hws w hw).1, fun e he => he w hw, fun e he => (hws w hw).2 e he⟩
    obtain ⟨last', hcovers, hnone⟩ := h.covers (fun _ he => he) hholds hc
    have hnodup := nodup_keys hcovers.ordered
    refine ⟨hnodup, fun k v hrange hbeyond hstays => ?_⟩
    have hmem : (k, v) ∈ rows := by
      refine (hcovers.kept (k, v) hstays ((hc.contains_iff k).2 ⟨hrange, hbeyond⟩)).resolve_right ?_
      rw [hnone (k, v) hstays]
      exact Bool.false_ne_true
    exact ⟨hmem, List.count_eq_one_of_mem hnodup (List.mem_map_of_mem hmem)⟩

/-- What may be counted on of a scan of a store that meets the contract of a store.  Its batches do
not show, and one of no pairs counts as one of one.  Whoever writes to the store, what is returned is
in the range, beyond the key that the scan was opened at, and in strict order.  If nobody does then
what is returned before a continuation and from there on make up the range, and so do pages.  And
whoever writes to the store between answers and between pages, no key is returned twice by the time
that the scan runs dry, and each pair that stays is returned once. -/
theorem returns_from_changing_store (s : KeyScan) :
    (∀ (content : Store) (last : Option Bytes) (n : Nat) (pairs : List (Bytes × Bytes)),
      content.Sorted → s.Reads content last n pairs →
        pairs = content.scan (s.remaining last) s.reverse n) ∧
    (∀ (budget : BudgetId) (x : World) (c : Continuation),
      (s.withBatches 0 budget).openAt x c = (s.withBatches 1 budget).openAt x c) ∧
    (∀ (x : World) (c : Continuation) (cur : Cursor (Bytes × Bytes)) (ws : List World),
      s.openAt x c = .ok cur → (∀ w ∈ ws, (w.store s.store).Sorted) →
        ((cur.answers ws).1.map Prod.fst).Pairwise (fun a b => s.comesAfter a.1 b.1 = true) ∧
        ∀ e ∈ (cur.answers ws).1.map Prod.fst,
          s.range.contains e.1 = true ∧ s.beyond c e.1 = true) ∧
    (∀ content : Store, content.Sorted → KeysFit content →
      (∀ (x x' : World) (cur : Cursor (Bytes × Bytes)) (ws : List World) (batch : Nat)
        (budget : BudgetId) (w' : World), s.openAt x .start = .ok cur →
        (∀ w ∈ ws, w.store s.store = content) → x'.store s.store = content →
        w'.Serves s.store content budget false →
          ∃ cur' rest,
            (s.withBatches batch budget).openAt x' (leftAt .start (cur.answers ws)) = .ok cur' ∧
            ((Handle.new cur').collect w').2 = .ok (rest, .sourceExhausted, .done) ∧
            (cur.answers ws).1.map Prod.fst ++ rest = s.inRange content) ∧
      ∀ (ws : List World) (rows : List (Bytes × Bytes)), s.Paged .start ws rows →
        (∀ w ∈ ws, w.store s.store = content) → rows = s.inRange content) ∧
    (∀ (c : Continuation) (ws : List World) (rows : List (Bytes × Bytes)), s.Paged c ws rows →
      (∀ w ∈ ws, (w.store s.store).Sorted ∧ KeysFit (w.store s.store)) →
        (rows.map Prod.fst).Nodup ∧ ∀ k v, s.range.contains k = true → s.beyond c k = true →
          (∀ w ∈ ws, (k, v) ∈ w.store s.store) →
            (k, v) ∈ rows ∧ (rows.map Prod.fst).count k = 1) :=
  ⟨fun _ _ _ _ hs h => h.eq_scan hs, fun _ _ _ => rfl,
    fun _ _ _ _ hopen hws => returns_in_order hopen hws,
    fun _ hs hk => ⟨fun _ _ _ _ batch budget _ hopen hws hx' hw' =>
      reopens_at_rest hs hk hopen hws batch budget hx' hw',
      fun _ _ h hws => h.eq_inRange hs hk hws⟩,
    fun _ _ _ h hws => h.each_once hws⟩

/-- A world in which a store has some keys of one byte, without values. -/
def worldOf (keys : List UInt8) : World :=
  World.empty.setStore "pairs" (keys.map fun k => ([k], []))

def sampleScan : KeyScan := ⟨"pairs", ⟨[1], [9]⟩, false, 2, 0⟩

/-- A page of the scan, in batches of some size, from a last key on. -/
def samplePage (batch : Nat) (last : Option Bytes) (c : Continuation) : Cursor (Bytes × Bytes) :=
  (sampleScan.withBatches batch 0).pairs (4 + UInt64.size) ⟨last, [], false, c, true⟩

def sampleToken (k : UInt8) : Continuation := (KeyPosition.mk [k]).toContinuation

/-- The second key is removed while it is in the buffer. -/
def sampleFirst : List World := [worldOf [1, 2, 3, 4], worldOf [1, 3, 4]]

/-- The fourth key is removed before it is read, and a fifth one comes in. -/
def sampleLast : List World := [worldOf [1, 3, 4], worldOf [1, 3, 5], worldOf [1, 3, 5]]

theorem paged_sample : sampleScan.Paged .start (sampleFirst ++ sampleLast)
    [([1], []), ([2], []), ([3], []), ([5], [])] := by
  have hfirst : (samplePage 2 none .start).answers sampleFirst =
      ([(([1], []), sampleToken 1), (([2], []), sampleToken 2)], none) := by cbv
  have hlast : (samplePage 1 (some [2]) (sampleToken 2)).answers sampleLast =
      ([(([3], []), sampleToken 3), (([5], []), sampleToken 5)],
        some (.stopped .sourceExhausted .done)) := by cbv
  have hopen : (sampleScan.withBatches 2 0).openAt (worldOf [1, 2, 3, 4]) .start =
      .ok (samplePage 2 none .start) := rfl
  have hreopen : (sampleScan.withBatches 1 0).openAt (worldOf [1, 2, 3, 4]) (sampleToken 2) =
      .ok (samplePage 1 (some [2]) (sampleToken 2)) := rfl
  have hrest := Paged.last hreopen (congrArg Prod.snd hlast)
  rw [hlast] at hrest
  have hgoing : ∀ t, ((samplePage 2 none .start).answers sampleFirst).2 ≠
      some (.stopped .sourceExhausted t) := by
    intro t h
    rw [hfirst] at h
    cases h
  have hpages := Paged.next hopen hgoing (by rw [hfirst]; exact hrest)
  rw [hfirst] at hpages
  exact hpages

theorem returns_from_changing_store_sample :
    (((samplePage 2 none .start).answers sampleFirst).1.map Prod.fst).Pairwise
      (fun a b => sampleScan.comesAfter a.1 b.1 = true) ∧
    (∃ cur' rest, (sampleScan.withBatches 0 0).openAt (worldOf [1, 2, 3, 4])
        (leftAt .start ((samplePage 2 none .start).answers [worldOf [1, 2, 3, 4]])) = .ok cur' ∧
      ((Handle.new cur').collect (worldOf [1, 2, 3, 4])).2 =
        .ok (rest, .sourceExhausted, .done) ∧
      ((samplePage 2 none .start).answers [worldOf [1, 2, 3, 4]]).1.map Prod.fst ++ rest =
        [([1], []), ([2], []), ([3], []), ([4], [])]) ∧
    ∃ rows, sampleScan.Paged .start (sampleFirst ++ sampleLast) rows ∧
      (rows.map Prod.fst).Nodup ∧ (rows.map Prod.fst).count [3] = 1 := by
  obtain ⟨-, -, horder, hrest, honce⟩ := returns_from_changing_store sampleScan
  have hopen : sampleScan.openAt (worldOf [1, 2, 3, 4]) .start =
      .ok (samplePage 2 none .start) := rfl
  refine ⟨(horder _ _ _ sampleFirst hopen (by decide)).1, ?_, _, paged_sample, ?_⟩
  · exact (hrest ((worldOf [1, 2, 3, 4]).store "pairs") (by decide) (by decide)).1 _ _ _ _ 0 0 _
      hopen (List.forall_mem_singleton.2 rfl) rfl ⟨rfl, rfl, fun _ => rfl⟩
  · obtain ⟨hnodup, hstays⟩ := honce _ _ _ paged_sample (by decide)
    exact ⟨hnodup, (hstays [3] [] (by decide) (by decide) (by decide)).2⟩

end KeyScan

end Cursor

end ResumableQuery
