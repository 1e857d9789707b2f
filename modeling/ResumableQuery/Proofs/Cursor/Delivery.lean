import ResumableQuery.Proofs.Cursor.Feed
import ResumableQuery.Proofs.Cursor.Merge

/-!
# What a merge delivers

A merge whose legs draw on supplied cursors hands out rows as if all rows of its legs were at hand:
it looks at the first rows, hands one out or passes some over, and goes on with what is left
(`Merge.Delivered`).  What legs wait for and in which order they answer makes no difference.  The
invariant is `Merge.Fed`: each leg fits its input, and if legs wait then one of them can be asked.
Asking those that can be asked keeps it (`Merge.Fed.read`), and so does using rows once all legs
have answered (`Merge.Fed.useIf`).  The merge delivers by induction on its legs
(`Merge.Fed.delivers`), and a merge that is opened on supplied cursors is fed
(`Merge.delivers_openAt`).
-/

namespace ResumableQuery.Cursor

/-! ### Feeds that have answered -/

namespace Feed

variable {key : α → Except CursorError Tuple} {limited : Bool} {p : Tuple → Bool} {x : Feed α}

/-- The feed after its row was used, if the key of the row satisfies a predicate. -/
def useIf (p : Tuple → Bool) (x : Feed α) : Feed α := ⟨x.leg.useIf p, x.input⟩

/-- The leg has a row, or it has ended. -/
structure Settled (key : α → Except CursorError Tuple) (limited : Bool) (x : Feed α) : Prop where
  sound : Sound key limited False x
  source? : x.leg.source? = none

namespace Settled

theorem isSettled (h : Settled key limited x) : x.leg.IsSettled := ⟨h.source?, h.sound.error?⟩

theorem wait? (h : Settled key limited x) : x.leg.wait? = none := by
  rcases h with ⟨hsound, hsource⟩
  cases hsound with
  | unread | waiting => cases hsource
  | front | ended => rfl

theorem wait?_useIf (h : Settled key limited x) : (x.useIf p).leg.wait? = none := by
  rcases h with ⟨hsound, hsource⟩
  cases hsound with
  | unread | waiting => cases hsource
  | front =>
    unfold useIf Leg.useIf
    dsimp only
    split <;> rfl
  | ended => rfl

/-- A row that was used is asked for again. -/
theorem useIf (h : Settled key limited x) {asked : Prop} (ha : asked) :
    Sound key limited asked (x.useIf p) := by
  rcases h with ⟨hsound, hsource⟩
  cases hsound with
  | unread | waiting => cases hsource
  | front mark mark_next key_eq =>
    unfold Feed.useIf Leg.useIf
    dsimp only
    split
    · exact .unread mark_next ha
    · exact .front mark mark_next key_eq
  | ended mark dry under => exact .ended mark dry under

theorem ahead_of_isExhausted (h : Settled key limited x) (hl : x.leg.isExhausted = true) :
    x.ahead = [] := by
  rcases h with ⟨hsound, hsource⟩
  cases hsound with
  | unread | waiting | front => cases hl
  | ended _ dry =>
    obtain rfl : _ = StopReason.sourceExhausted := Option.some.inj (of_decide_eq_true hl)
    exact dry rfl

theorem limited_of_limit? (h : Settled key limited x) {r : StopReason}
    (hr : x.leg.limit? = some r) : limited = true := by
  rcases h with ⟨hsound, hsource⟩
  cases hsound with
  | unread | waiting | front => cases hr
  | ended _ _ under =>
    obtain ⟨hr, isLimit⟩ := Option.filter_eq_some_iff.1 hr
    cases hr
    exact under isLimit

section Shows

variable {m : Merge α} {f : α → Tuple} (h : Settled m.key limited x) (hl : x.leg.limit? = none)
  (hkeyed : Merge.Keyed m f x.ahead)

include h hl hkeyed

/-- A leg that has answered, and has not stopped for a limit, shows the first row ahead. -/
theorem shows : (∃ t v next rest, x.leg = .front t v (f v) next rest) ∨
    ∃ r t, x.leg = .ended r t ∧ x.input.rows = [] := by
  rcases h with ⟨hsound, hsource⟩
  cases hsound with
  | unread | waiting => cases hsource
  | @front t v k next rest l marks mark mark_next key_eq =>
    have hv := hkeyed v List.mem_cons_self
    rw [key_eq, Except.ok.injEq] at hv
    exact .inl ⟨t, v, next, rest, hv ▸ rfl⟩
  | @ended r t c l marks mark dry under =>
    refine .inr ⟨r, t, rfl, dry ?_⟩
    have hnone := Option.filter_eq_none_iff.1 hl r rfl
    exact Bool.eq_false_iff.2 hnone

theorem key?_eq : x.leg.key? = x.ahead.head?.map f := by
  rcases x with ⟨leg, c, o, l, marks⟩
  rcases h.shows hl hkeyed with ⟨t, v, next, rest, rfl⟩ | ⟨r, t, rfl, rfl⟩ <;> rfl

theorem valueIf_eq : x.leg.valueIf p = x.ahead.head?.filter (p ∘ f) := by
  rcases x with ⟨leg, c, o, l, marks⟩
  rcases h.shows hl hkeyed with ⟨t, v, next, rest, rfl⟩ | ⟨r, t, rfl, rfl⟩ <;> rfl

theorem ahead_useIf : (x.useIf p).ahead = Merge.advance f p x.ahead := by
  rcases x with ⟨leg, c, o, l, marks⟩
  rcases h.shows hl hkeyed with ⟨t, v, next, rest, rfl⟩ | ⟨r, t, rfl, rfl⟩
  · by_cases hp : p (f v) = true
    · simp only [ahead, Feed.useIf, Leg.useIf, Merge.advance, if_pos hp]
    · simp only [ahead, Feed.useIf, Leg.useIf, Merge.advance, if_neg hp]
  · rfl

end Shows

end Settled

end Feed

namespace Merge

/-! ### What is delivered -/

/-- Continuations stand for lists of rows, each leg by its own marks. -/
inductive Marked : List (Continuation → List α → Prop) → List Continuation → List (List α) → Prop
  | nil : Marked [] [] []
  | cons {M t l Ms ts ls} (mark : M t l) (rest : Marked Ms ts ls) :
      Marked (M :: Ms) (t :: ts) (l :: ls)

/-- The continuation of the merge is one at which its legs have some rows ahead. -/
def MarksAt (m : Merge α) (Ms : List (Continuation → List α → Prop)) (t : Continuation)
    (ls : List (List α)) : Prop :=
  ∃ ts, t = m.place ts ∧ Marked Ms ts ls

/-- What a merge hands out whose legs have some rows ahead.  At each step the keys of the first rows
decide, and under limits the merge may end before.  Each row and each such end comes with a
continuation at which the legs have ahead what is left. -/
inductive Delivered (m : Merge α) (f : α → Tuple) (limited : Bool)
    (at_ : Continuation → List (List α) → Prop) :
    List (List α) → List (α × Continuation) → Ending → Prop
  | take {ls k v t rows e} (taken : m.choice (ls.map fun l => l.head?.map f) = .take k)
      (first : (ls.findSome? fun l => l.head?.filter ((· = k) ∘ f)) = some v)
      (mark : at_ t (ls.map (advance f (· = k))))
      (rest : Delivered m f limited at_ (ls.map (advance f (· = k))) rows e) :
      Delivered m f limited at_ ls ((v, t) :: rows) e
  | pass {ls k rows e} (passed : m.choice (ls.map fun l => l.head?.map f) = .pass k)
      (rest : Delivered m f limited at_ (ls.map (advance f (· ≠ k))) rows e) :
      Delivered m f limited at_ ls rows e
  | dry {ls r} (dry : m.choice (ls.map fun l => l.head?.map f) = .stop r) :
      Delivered m f limited at_ ls [] (.stopped .sourceExhausted .done)
  | limit {ls r t} (under : limited = true) (isLimit : r.isLimit = true) (mark : at_ t ls) :
      Delivered m f limited at_ ls [] (.stopped r t)

/-- Asked for all its rows, a cursor hands out what a merge does whose legs have some rows ahead. -/
def Delivers (m : Merge α) (f : α → Tuple) (limited : Bool)
    (at_ : Continuation → List (List α) → Prop) (ls : List (List α)) (c : Cursor α) (w : World) :
    Prop :=
  Delivered m f limited at_ ls (c.run w).2.1 (c.run w).2.2

variable {m : Merge α} {f : α → Tuple} {limited : Bool}

theorem keyed_advance {ls : List (List α)} {p : Tuple → Bool} (h : ∀ l ∈ ls, Keyed m f l) :
    ∀ l ∈ ls.map (advance f p), Keyed m f l := fun l' hl' => by
  obtain ⟨l, hl, hsub⟩ := mem_advance hl'
  exact fun a ha => h l hl a (hsub.subset ha)

theorem combine_of_taken {ls : List (List α)} {k : Tuple} {v : α} (hkeyed : ∀ l ∈ ls, Keyed m f l)
    (taken : m.choice (ls.map fun l => l.head?.map f) = .take k)
    (first : (ls.findSome? fun l => l.head?.filter ((· = k) ∘ f)) = some v) :
    m.combine (ls.map .ofList) = .row v (m.combine ((ls.map (advance f (· = k))).map .ofList)) := by
  rw [← keys_ofList hkeyed] at taken
  rw [combine_of_take (any_fails_ofList hkeyed) taken ((findSome?_ofList hkeyed).trans first),
    useEach_ofList hkeyed]

theorem combine_of_passed {ls : List (List α)} {k : Tuple} (hkeyed : ∀ l ∈ ls, Keyed m f l)
    (passed : m.choice (ls.map fun l => l.head?.map f) = .pass k) :
    m.combine (ls.map .ofList) = m.combine ((ls.map (advance f (· ≠ k))).map .ofList) := by
  obtain ⟨k', hk', hne⟩ := exists_of_choice_pass m passed
  obtain ⟨v, hv, -⟩ := exists_findSome? hkeyed hk' (p := (· ≠ k)) (decide_eq_true hne)
  rw [← keys_ofList hkeyed] at passed
  rw [combine_of_pass (any_fails_ofList hkeyed) passed hv, useEach_ofList hkeyed]

/-- Without limits, what is delivered is all that the legs come to together. -/
theorem Delivered.combine_eq {at_ : Continuation → List (List α) → Prop} {ls : List (List α)}
    {rows : List (α × Continuation)} {e : Ending} (h : Delivered m f false at_ ls rows e)
    (hkeyed : ∀ l ∈ ls, Keyed m f l) :
    e = .stopped .sourceExhausted .done ∧
      m.combine (ls.map .ofList) = .ofList (rows.map Prod.fst) := by
  induction h with
  | @take ls k v t rows e taken first mark rest ih =>
    obtain ⟨he, hrows⟩ := ih (keyed_advance hkeyed)
    refine ⟨he, ?_⟩
    rw [combine_of_taken hkeyed taken first, hrows]
    rfl
  | @pass ls k rows e passed rest ih =>
    obtain ⟨he, hrows⟩ := ih (keyed_advance hkeyed)
    exact ⟨he, (combine_of_passed hkeyed passed).trans hrows⟩
  | dry dry =>
    rw [← keys_ofList hkeyed] at dry
    exact ⟨rfl, combine_of_stop (any_fails_ofList hkeyed) dry⟩
  | limit under => cases under

/-! ### The invariant -/

open Feed

/-- Feeds of a merge between its steps: each leg fits its input, and those that wait for a turn were
asked last, and if legs wait then one of them can be asked. -/
structure Fed (m : Merge α) (f : α → Tuple) (limited : Bool) (lastRead : List Nat)
    (xs : List (Feed α)) (w : World) : Prop where
  sound : ∀ x ∈ xs, Sound m.key limited (x.leg.wait? = none) x
  keyed : ∀ l ∈ xs.map Feed.ahead, Keyed m f l
  supply : Supplied limited (inputs xs) w
  live : (legs xs).waits = [] ∨ (legs xs).waits.any w.isOver = true
  last : ∀ (i : Nat) (l : Leg α) (wait : Wait), (legs xs)[i]? = some l → l.wait? = some wait →
    wait.turn = true → i ∈ lastRead

theorem fed_of_wait?_eq_none {xs : List (Feed α)} {w : World}
    (hwait : ∀ x ∈ xs, x.leg.wait? = none)
    (hsound : ∀ x ∈ xs, Sound m.key limited (x.leg.wait? = none) x)
    (hkeyed : ∀ l ∈ xs.map Feed.ahead, Keyed m f l) (hsupply : Supplied limited (inputs xs) w) :
    Fed m f limited [] xs w := by
  have hlegs : ∀ l ∈ legs xs, l.wait? = none := fun l hl => by
    obtain ⟨x, hx, rfl⟩ := List.mem_map.1 hl
    exact hwait x hx
  refine ⟨hsound, hkeyed, hsupply, .inl (List.filterMap_eq_nil_iff.2 hlegs), ?_⟩
  intro i l wait hl hw
  rw [hlegs l (List.mem_of_getElem? hl)] at hw
  cases hw

theorem marked_tokens {xs : List (Feed α)} (h : ∀ x ∈ xs, x.input.marks x.leg.token x.ahead) :
    Marked ((inputs xs).map Input.marks) (legs xs).tokens (xs.map Feed.ahead) := by
  induction xs with
  | nil => exact .nil
  | cons x xs ih =>
    obtain ⟨hx, hxs⟩ := List.forall_mem_cons.1 h
    exact .cons hx (ih hxs)

namespace Fed

variable {lastRead : List Nat} {xs : List (Feed α)} {w : World}

theorem due_iff (h : Fed m f limited lastRead xs w) {i : Nat} {x : Feed α} (hx : xs[i]? = some x) :
    i ∈ (legs xs).due lastRead w ↔ x.leg.isDue w = true := by
  have hl : (legs xs)[i]? = some x.leg := by rw [legs, List.getElem?_map, hx, Option.map_some]
  exact Legs.mem_due_iff hl fun wait hw turn => h.last i _ wait hl hw turn

/-- If no leg is to be asked then all have answered. -/
theorem settled (h : Fed m f limited lastRead xs w) (due : (legs xs).due lastRead w = []) :
    ∀ x ∈ xs, Settled m.key limited x := by
  have undue {i : Nat} {x : Feed α} (hx : xs[i]? = some x) : x.leg.isDue w = false := by
    refine Bool.eq_false_iff.2 fun hdue => ?_
    have hi := (h.due_iff hx).2 hdue
    rw [due] at hi
    cases hi
  have unwaiting : (legs xs).waits = [] := h.live.resolve_right fun hover => by
    obtain ⟨wait, hwait, hover⟩ := List.any_eq_true.1 hover
    obtain ⟨l, hl, hlw⟩ := List.mem_filterMap.1 hwait
    obtain ⟨x, hx, rfl⟩ := List.mem_map.1 hl
    obtain ⟨i, hi⟩ := List.mem_iff_getElem?.1 hx
    have hdue := undue hi
    rw [Leg.isDue_of_wait? hlw, hover] at hdue
    cases hdue
  intro x hx
  obtain ⟨i, hi⟩ := List.mem_iff_getElem?.1 hx
  have hdue := undue hi
  have hwait : x.leg.wait? = none :=
    List.filterMap_eq_nil_iff.1 unwaiting _ (List.mem_map.2 ⟨x, hx, rfl⟩)
  have hsound := h.sound x hx
  cases hsound with
  | unread => cases hdue
  | waiting => cases hwait
  | front mark mark_next key_eq => exact ⟨.front mark mark_next key_eq, rfl⟩
  | ended mark dry under => exact ⟨.ended mark dry under, rfl⟩

/-- Asking the legs that are to be asked, and then waiting if legs have to wait. -/
theorem read (h : Fed m f limited lastRead xs w) {places : List Nat}
    (due : (legs xs).due lastRead w = places) :
    ∃ (w' : World) (xs' : List (Feed α)),
      Legs.read m.key places (legs xs) w = (w', .ok (legs xs')) ∧
        xs'.map Feed.ahead = xs.map Feed.ahead ∧
        (inputs xs').map Input.marks = (inputs xs).map Input.marks ∧
        ((legs xs').waits = [] → Fed m f limited [] xs' w') ∧
        ((legs xs').waits ≠ [] →
          Fed m f limited places xs' (w'.await (.any (legs xs').waits))) := by
  subst due
  have hsound (i : Nat) (x : Feed α) (hx : (xs.map (Feed.woken w))[i]? = some x) :
      Sound m.key limited (i ∈ (legs xs).due lastRead w) x := by
    rw [List.getElem?_map] at hx
    obtain ⟨y, hy, rfl⟩ := Option.map_eq_some_iff.1 hx
    exact (h.sound y (List.mem_of_getElem? hy)).woken (h.due_iff hy)
  have hsupply : Supplied limited (inputs (xs.map (Feed.woken w))) w :=
    inputs_woken w xs ▸ supply_supplied.wake h.supply
  obtain ⟨w', xs', hread, hsound', haheads', hmarks', hkeep, hsupply'⟩ :=
    exists_read (Legs.nodup_due lastRead (legs xs) w) hsound
      (aheads_woken w xs ▸ fun l hl v hv => ⟨f v, h.keyed l hl v hv⟩) hsupply
  rw [legs_woken] at hread hkeep
  rw [aheads_woken] at haheads'
  rw [marks_woken] at hmarks'
  have hkeyed' : ∀ l ∈ xs'.map Feed.ahead, Keyed m f l := haheads' ▸ h.keyed
  have hsound'' : ∀ x ∈ xs', Sound m.key limited (x.leg.wait? = none) x :=
    fun x hx => (hsound' x hx).enter
  have hwaits : (legs xs').waits = Input.waits (inputs xs') := by
    rw [Legs.waits, Input.waits, legs, inputs, List.filterMap_map, List.filterMap_map]
    exact List.filterMap_congr fun x hx => (hsound' x hx).wait?
  refine ⟨w', xs', hread, haheads', hmarks', fun hnil => ?_, fun hne => ?_⟩
  · refine fed_of_wait?_eq_none (fun x hx => ?_) hsound'' hkeyed' hsupply'
    exact List.filterMap_eq_nil_iff.1 hnil _ (List.mem_map.2 ⟨x, hx, rfl⟩)
  · rw [hwaits] at hne ⊢
    obtain ⟨hsupply'', hover⟩ := supply_supplied.await hsupply' hne
    refine ⟨hsound'', hkeyed', hsupply'', .inr ?_, fun i l wait hl hw turn => ?_⟩
    · rw [hwaits, ← World.isOver_any]
      exact hover
    · -- a leg that was not asked did not wait for a turn
      by_contra hi
      rw [hkeep i hi] at hl
      obtain ⟨x, hx, rfl⟩ := Option.map_eq_some_iff.1 (List.getElem?_map .. ▸ hl)
      refine hi ((h.due_iff hx).2 ?_)
      rw [Leg.isDue_of_wait? hw]
      exact isOver_of_turn turn w

/-! ### Using rows -/

section Settled

variable (hs : ∀ x ∈ xs, Settled m.key limited x)

include hs

theorem isSettled_of_mem : ∀ l ∈ legs xs, l.IsSettled := fun l hl => by
  obtain ⟨x, hx, rfl⟩ := List.mem_map.1 hl
  exact (hs x hx).isSettled

theorem limited_of_limit? {r : StopReason} (hl : (legs xs).limit? = some r) : limited = true := by
  obtain ⟨-, l, hl, hr⟩ := exists_of_limit?_eq_some hl
  obtain ⟨x, hx, rfl⟩ := List.mem_map.1 hl
  exact (hs x hx).limited_of_limit? hr

theorem choice_of_exhausted (hop : m.operation = .intersection) {l : Leg α} (hl : l ∈ legs xs)
    (hex : l.isExhausted = true) :
    m.choice ((xs.map Feed.ahead).map fun l => l.head?.map f) = .stop .sourceExhausted := by
  obtain ⟨x, hx, rfl⟩ := List.mem_map.1 hl
  refine m.choice_of_none_mem hop (List.mem_map.2 ⟨[], List.mem_map.2 ⟨x, hx, ?_⟩, rfl⟩)
  exact (hs x hx).ahead_of_isExhausted hex

end Settled

theorem limit?_eq_none (hl : (legs xs).limit? = none) : ∀ x ∈ xs, x.leg.limit? = none :=
  fun x hx => List.findSome?_eq_none_iff.1 hl _ (List.mem_map.2 ⟨x, hx, rfl⟩)

section Use

variable (h : Fed m f limited lastRead xs w) (hs : ∀ x ∈ xs, Settled m.key limited x)
  (hl : (legs xs).limit? = none)

include h hs hl

theorem keys_eq :
    (legs xs).map Leg.key? = (xs.map Feed.ahead).map fun l => l.head?.map f := by
  rw [legs, List.map_map, List.map_map]
  exact List.map_congr_left fun x hx => (hs x hx).key?_eq (limit?_eq_none hl x hx)
    (h.keyed _ (List.mem_map.2 ⟨x, hx, rfl⟩))

theorem valueIf_eq (p : Tuple → Bool) :
    (legs xs).valueIf p = (xs.map Feed.ahead).findSome? fun l => l.head?.filter (p ∘ f) := by
  rw [legs, Legs.valueIf, List.findSome?_map, List.findSome?_map]
  exact findSome?_congr fun x hx => (hs x hx).valueIf_eq (limit?_eq_none hl x hx)
    (h.keyed _ (List.mem_map.2 ⟨x, hx, rfl⟩))

theorem aheads_useIf (p : Tuple → Bool) :
    (xs.map (Feed.useIf p)).map Feed.ahead = (xs.map Feed.ahead).map (advance f p) := by
  rw [List.map_map, List.map_map]
  exact List.map_congr_left fun x hx => (hs x hx).ahead_useIf (limit?_eq_none hl x hx)
    (h.keyed _ (List.mem_map.2 ⟨x, hx, rfl⟩))

theorem useIf (p : Tuple → Bool) : Fed m f limited [] (xs.map (Feed.useIf p)) w := by
  refine fed_of_wait?_eq_none (fun y hy => ?_) (fun y hy => ?_) ?_ ?_
  · obtain ⟨x, hx, rfl⟩ := List.mem_map.1 hy
    exact (hs x hx).wait?_useIf
  · obtain ⟨x, hx, rfl⟩ := List.mem_map.1 hy
    exact (hs x hx).useIf (hs x hx).wait?_useIf
  · exact h.aheads_useIf hs hl p ▸ keyed_advance h.keyed
  · have hinputs : inputs (xs.map (Feed.useIf p)) = inputs xs := by
      rw [inputs, List.map_map]
      rfl
    exact hinputs ▸ h.supply

end Use

/-! ### The merge -/

theorem marksAt_position (h : Fed m f limited lastRead xs w) :
    m.MarksAt ((inputs xs).map Input.marks) (m.position (legs xs)) (xs.map Feed.ahead) :=
  ⟨_, rfl, marked_tokens fun x hx => (h.sound x hx).mark⟩

theorem legs_useIf (p : Tuple → Bool) (xs : List (Feed α)) :
    (legs xs).useIf p = legs (xs.map (Feed.useIf p)) := by
  rw [legs, legs, Legs.useIf, List.map_map, List.map_map]
  rfl

theorem marks_useIf (p : Tuple → Bool) (xs : List (Feed α)) :
    (inputs (xs.map (Feed.useIf p))).map Input.marks = (inputs xs).map Input.marks := by
  rw [inputs, inputs, List.map_map, List.map_map, List.map_map]
  rfl

theorem delivers_stop (h : Fed m f limited lastRead xs w)
    (hs : ∀ x ∈ xs, Settled m.key limited x) {r : StopReason}
    (hv : m.verdict (legs xs) = .stop r) :
    m.Delivers f limited (m.MarksAt ((inputs xs).map Input.marks)) (xs.map Feed.ahead)
      (stopFor r (m.position (legs xs))) w := by
  cases hr : r.isLimit with
  | true =>
    have hl := limit?_of_stop hv hr
    rw [stopFor, if_pos hr]
    exact .limit (limited_of_limit? hs hl) hr h.marksAt_position
  | false =>
    rw [stopFor, hr]
    cases hl : (legs xs).limit? with
    | none =>
      rw [verdict_eq_choice (isSettled_of_mem hs) hl, h.keys_eq hs hl] at hv
      exact .dry hv
    | some r' =>
      -- an intersection one leg of which has ended, while another one stopped for a limit
      obtain ⟨hop, l, hmem, hex⟩ := exhausted_of_stop hv hr hl
      exact .dry (choice_of_exhausted hs hop hmem hex)

section Steps

variable (h : Fed m f limited lastRead xs w) (hs : ∀ x ∈ xs, Settled m.key limited x) {k : Tuple}

include h hs

/-- If the merge goes on then no leg has stopped for a limit, and the first rows decide how. -/
theorem choice_of_verdict {v : Verdict} (hverdict : m.verdict (legs xs) = v)
    (going : ∀ r, v ≠ .stop r) :
    (legs xs).limit? = none ∧ m.choice ((legs xs).map Leg.key?) = v ∧
      m.choice ((xs.map Feed.ahead).map fun l => l.head?.map f) = v := by
  subst hverdict
  have hl : (legs xs).limit? = none := limit?_of_not_stop going
  have hchoice : m.choice ((legs xs).map Leg.key?) = m.verdict (legs xs) :=
    (verdict_eq_choice (isSettled_of_mem hs) hl).symm
  exact ⟨hl, hchoice, h.keys_eq hs hl ▸ hchoice⟩

/-- A key that is to be handed out is that of a leg. -/
theorem exists_taken (hverdict : m.verdict (legs xs) = .take k) :
    ∃ v, (legs xs).valueIf (· = k) = some v := by
  obtain ⟨-, hchoice, -⟩ := h.choice_of_verdict hs hverdict (fun r hr => by cases hr)
  exact valueIf_of_mem_key (mem_of_choice_take m hchoice) (decide_eq_true rfl)

/-- Rows are passed over only where keys differ. -/
theorem exists_passed (hverdict : m.verdict (legs xs) = .pass k) :
    ∃ v, (legs xs).valueIf (· ≠ k) = some v := by
  obtain ⟨-, hchoice, -⟩ := h.choice_of_verdict hs hverdict (fun r hr => by cases hr)
  obtain ⟨k', hk', hne⟩ := exists_of_choice_pass m hchoice
  exact valueIf_of_mem_key hk' (decide_eq_true hne)

variable {rows : List (α × Continuation)} {e : Ending}

theorem delivered_take (hverdict : m.verdict (legs xs) = .take k) {v : α}
    (taken : (legs xs).valueIf (· = k) = some v)
    (rest : Delivered m f limited
      (m.MarksAt ((inputs (xs.map (Feed.useIf (· = k)))).map Input.marks))
      ((xs.map (Feed.useIf (· = k))).map Feed.ahead) rows e) :
    Delivered m f limited (m.MarksAt ((inputs xs).map Input.marks)) (xs.map Feed.ahead)
      ((v, m.position ((legs xs).useIf (· = k))) :: rows) e := by
  obtain ⟨hl, -, hchoice⟩ := h.choice_of_verdict hs hverdict (fun r hr => by cases hr)
  have hmark := (h.useIf hs hl (· = k)).marksAt_position
  rw [marks_useIf, h.aheads_useIf hs hl] at hmark rest
  rw [h.valueIf_eq hs hl] at taken
  rw [legs_useIf]
  exact .take hchoice taken hmark rest

theorem delivered_pass (hverdict : m.verdict (legs xs) = .pass k)
    (rest : Delivered m f limited
      (m.MarksAt ((inputs (xs.map (Feed.useIf (· ≠ k)))).map Input.marks))
      ((xs.map (Feed.useIf (· ≠ k))).map Feed.ahead) rows e) :
    Delivered m f limited (m.MarksAt ((inputs xs).map Input.marks)) (xs.map Feed.ahead) rows e := by
  obtain ⟨hl, -, hchoice⟩ := h.choice_of_verdict hs hverdict (fun r hr => by cases hr)
  rw [marks_useIf, h.aheads_useIf hs hl] at rest
  exact .pass hchoice rest

end Steps

/-- A fed merge delivers the rows of its legs.  The induction is on the legs, which every step takes
further. -/
theorem delivers (h : Fed m f limited lastRead xs w) :
    m.Delivers f limited (m.MarksAt ((inputs xs).map Input.marks)) (xs.map Feed.ahead)
      (m.rows lastRead (legs xs)) w := by
  induction hlegs : legs xs using (Legs.wellFoundedRelation (α := α)).wf.induction
    generalizing lastRead xs w with
  | h ls ih =>
  subst hlegs
  rw [Delivers, rows, run]
  split
  · rename_i place places due
    obtain ⟨w', xs', hread, haheads, hmarks, hnone, hsome⟩ := h.read due
    have hbelow := Legs.below_read (Legs.isDue_of_due_eq_cons due) hread
    split
    · rename_i reading
      rw [hread] at reading
      cases reading
    · rename_i reading
      rw [hread] at reading
      cases reading
      rw [run, ← haheads, ← hmarks]
      split
      · rename_i hwaits
        exact ih _ hbelow (hnone hwaits) rfl
      · rename_i hwaits
        exact ih _ hbelow (hsome hwaits) rfl
  · rename_i due
    have hs := h.settled due
    split
    · rename_i r hverdict
      exact h.delivers_stop hs hverdict
    · rename_i k hverdict
      obtain ⟨hl, -⟩ := h.choice_of_verdict hs hverdict (fun r hr => by cases hr)
      split
      · rename_i v taken
        have rest := ih _ (Legs.below_useIf taken) (h.useIf hs hl (· = k)) (legs_useIf _ xs).symm
        exact h.delivered_take hs hverdict taken rest
      · rename_i hnone
        obtain ⟨v, hv⟩ := h.exists_taken hs hverdict
        rw [hnone] at hv
        cases hv
    · rename_i k hverdict
      obtain ⟨hl, -⟩ := h.choice_of_verdict hs hverdict (fun r hr => by cases hr)
      split
      · rename_i v passed
        have rest := ih _ (Legs.below_useIf passed) (h.useIf hs hl (· ≠ k)) (legs_useIf _ xs).symm
        exact h.delivered_pass hs hverdict rest
      · rename_i hnone
        obtain ⟨v, hv⟩ := h.exists_passed hs hverdict
        rw [hnone] at hv
        cases hv

end Fed

/-! ### Opening -/

/-- The input of a leg that is opened at a continuation, where its rows are those that the
continuation stands for.  A leg that had run dry is not opened again. -/
inductive OpensLeg : OpenLeg α × Continuation → Input α → Prop
  | opened {opener t c l marks} (going : t ≠ .done) (opens : opener t = .ok c) (mark : marks t l) :
      OpensLeg (opener, t) (.unasked marks c l)
  | ended {opener marks} (mark : marks .done []) :
      OpensLeg (opener, .done) (.unasked marks .exhausted [])

theorem isDone_eq_false {t : Continuation} (h : t ≠ .done) : t.isDone = false := by
  cases t with
  | done => exact absurd rfl h
  | start | resume => rfl

theorem exists_feed (key : α → Except CursorError Tuple) (limited : Bool)
    {place : OpenLeg α × Continuation} {x : Input α} (h : OpensLeg place x) :
    ∃ y : Feed α, openLeg place.1 place.2 = .ok y.leg ∧ y.input = x ∧ y.ahead = x.rows ∧
      y.leg.wait? = none ∧ Sound key limited (y.leg.wait? = none) y := by
  cases h with
  | @opened opener t c l marks going opens mark =>
    refine ⟨⟨.unread t c, _⟩, ?_, rfl, rfl, rfl, .unread mark rfl⟩
    show openLeg opener t = _
    rw [openLeg, isDone_eq_false going, opens]
    rfl
  | ended mark =>
    exact ⟨⟨.ended .sourceExhausted .done, _⟩, rfl, rfl, rfl, rfl,
      .ended mark (fun _ => rfl) fun hr => by cases hr⟩

theorem exists_feeds (key : α → Except CursorError Tuple) (limited : Bool)
    {places : List (OpenLeg α × Continuation)} {xs : List (Input α)}
    (h : List.Forall₂ OpensLeg places xs) :
    ∃ ys : List (Feed α),
      (places.mapM fun (opener, token) => openLeg opener token) = .ok (legs ys) ∧
        inputs ys = xs ∧ ys.map Feed.ahead = xs.map Input.rows ∧
        (∀ y ∈ ys, y.leg.wait? = none ∧ Sound key limited (y.leg.wait? = none) y) := by
  induction h with
  | nil => exact ⟨[], rfl, rfl, rfl, fun y hy => by cases hy⟩
  | @cons place x places xs hplace _ ih =>
    obtain ⟨y, hleg, hinput, hahead, hy⟩ := exists_feed key limited hplace
    obtain ⟨ys, hlegs, hinputs, haheads, hys⟩ := ih
    refine ⟨y :: ys, ?_, congrArg₂ List.cons hinput hinputs, congrArg₂ List.cons hahead haheads,
      List.forall_mem_cons.2 ⟨hy, hys⟩⟩
    rw [List.mapM_cons, hlegs]
    show (openLeg place.1 place.2 >>= _) = _
    rw [hleg]
    rfl

/-- A merge that is opened on supplied cursors delivers their rows. -/
theorem delivers_openAt {openers : List (OpenLeg α)} {c : Continuation} {ts : List Continuation}
    {xs : List (Input α)} {w : World} (hc : c ≠ .done)
    (hresume : m.resume openers.length c = .ok ts)
    (hopen : List.Forall₂ OpensLeg (openers.zip ts) xs) (hkeyed : ∀ x ∈ xs, Keyed m f x.rows)
    (hsupply : Supplied limited xs w) :
    ∃ cur, m.openAt openers c = .ok cur ∧
      m.Delivers f limited (m.MarksAt (xs.map Input.marks)) (xs.map Input.rows) cur w := by
  obtain ⟨ys, hlegs, rfl, haheads, hys⟩ := exists_feeds m.key limited hopen
  refine ⟨m.rows [] (legs ys), ?_, haheads ▸ Fed.delivers ?_⟩
  · rw [openAt, isDone_eq_false hc, hresume]
    exact congrArg (fun r : Except CursorError (Legs α) => r.map (m.rows [])) hlegs
  · refine fed_of_wait?_eq_none (fun y hy => (hys y hy).1) (fun y hy => (hys y hy).2) ?_ hsupply
    rw [haheads]
    exact List.forall_mem_map.2 hkeyed

end Merge

end ResumableQuery.Cursor
