import ResumableQuery.Proofs.Cursor.Legs
import ResumableQuery.Proofs.Cursor.SetAlgebra
import ResumableQuery.Proofs.Cursor.Supply

/-!
# Legs that draw on supplied cursors

Each leg of a merge draws on a cursor, its input, and is ahead of the merge by at most one row.  A
`Feed` is a leg together with its input, and `Feed.Sound` says how the two fit: which row was read
ahead, what the leg waits for, and for which rows its continuation stands.  Asking the legs that can
be asked keeps this up and loses no row that is ahead (`Feed.exists_read`); where all inputs wait, a
leg can be asked again in the end, and it is among those that are asked then (`Legs.mem_due_iff`).
-/

namespace ResumableQuery.Cursor

/-! ### Legs that are to be asked -/

theorem Leg.isDue_of_wait? {l : Leg α} {wait : Wait} (h : l.wait? = some wait) (w : World) :
    l.isDue w = w.isOver wait := by
  cases l with
  | waiting => exact congrArg w.isOver (Option.some.inj h)
  | unread | front | ended | failed => cases h

namespace Legs

/-- A leg is among those that are to be asked if it can be asked, provided that those which wait for
a turn were asked last. -/
theorem mem_due_iff {legs : Legs α} {lastRead : List Nat} {w : World} {i : Nat} {l : Leg α}
    (hl : legs[i]? = some l)
    (hlast : ∀ wait, l.wait? = some wait → wait.turn = true → i ∈ lastRead) :
    i ∈ legs.due lastRead w ↔ l.isDue w = true := by
  have place (p : Leg α → Bool) (hp : p l = true) : i ∈ legs.placesOf p := by
    refine List.mem_filterMap.2 ⟨(l, i), ?_, by simp [hp]⟩
    exact List.mem_zipIdx_iff_getElem?.2 (by simpa using hl)
  rw [due, List.mem_filter, hl, Option.any_some]
  refine and_iff_right_of_imp fun hdue => ?_
  split
  · exact List.mem_range.2 (List.getElem?_eq_some_iff.1 hl).1
  · rw [inWakingOrder, List.mem_eraseDups, List.mem_append, List.mem_append]
    cases hw : l.wait? with
    | none => exact .inl (.inl (place _ (by rw [hw]; rfl)))
    | some wait =>
      cases hturn : wait.turn with
      | true => exact .inr (List.mem_reverse.2 (hlast wait hw hturn))
      | false =>
        -- a task that the leg waits for has ended
        have hover : w.isOver wait = true := Leg.isDue_of_wait? hw w ▸ hdue
        rw [World.isOver, hturn, Bool.false_or] at hover
        obtain ⟨id, hid, hended⟩ := List.any_eq_true.1 hover
        obtain ⟨e, he, heid⟩ := List.any_eq_true.1 hended
        refine .inl (.inr (List.mem_flatMap.2 ⟨e, he, place _ ?_⟩))
        rw [hw, Option.any_some, List.contains_iff_mem, beq_iff_eq.1 heid]
        exact hid

theorem nodup_eraseDups (places : List Nat) : places.eraseDups.Nodup := by
  induction hn : places.length using Nat.strong_induction_on generalizing places with
  | _ n ih =>
  cases places with
  | nil => exact .nil
  | cons i places =>
    rw [List.eraseDups_cons, List.nodup_cons, List.mem_eraseDups]
    refine ⟨fun hi => by simpa using (List.mem_filter.1 hi).2, ih _ ?_ _ rfl⟩
    exact hn ▸ Nat.lt_succ_of_le (List.length_filter_le _ _)

theorem nodup_due (lastRead : List Nat) (legs : Legs α) (w : World) :
    (legs.due lastRead w).Nodup := by
  refine List.Nodup.filter _ ?_
  split
  · exact List.nodup_range
  · exact nodup_eraseDups _

end Legs

/-! ### A leg and its input -/

/-- A leg and the input that it draws on. -/
structure Feed (α : Type) : Type where
  leg : Leg α
  input : Input α

namespace Feed

/-- The rows after the continuation of the leg. -/
def ahead (x : Feed α) : List α :=
  match x.leg with
  | .front _ v _ _ _ => v :: x.input.rows
  | _ => x.input.rows

/-- The feed once its input may be asked again, if the wait of that is over. -/
def woken (w : World) (x : Feed α) : Feed α := ⟨x.leg, x.input.woken w⟩

theorem ahead_woken (w : World) (x : Feed α) : (x.woken w).ahead = x.ahead := by
  simp only [ahead, woken, Input.rows_woken]

/-- The legs of feeds. -/
def legs (xs : List (Feed α)) : Legs α := xs.map leg

/-- The inputs of feeds. -/
def inputs (xs : List (Feed α)) : List (Input α) := xs.map input

/-! ### Waking -/

theorem legs_woken (w : World) (xs : List (Feed α)) : legs (xs.map (woken w)) = legs xs := by
  rw [legs, List.map_map]
  rfl

theorem inputs_woken (w : World) (xs : List (Feed α)) :
    inputs (xs.map (woken w)) = (inputs xs).map (Input.woken w) := by
  rw [inputs, inputs, List.map_map, List.map_map]
  rfl

theorem aheads_woken (w : World) (xs : List (Feed α)) :
    (xs.map (woken w)).map ahead = xs.map ahead := by
  rw [List.map_map]
  exact List.map_congr_left fun x _ => ahead_woken w x

theorem marks_woken (w : World) (xs : List (Feed α)) :
    (inputs (xs.map (woken w))).map Input.marks = (inputs xs).map Input.marks := by
  rw [inputs_woken, List.map_map]
  exact List.map_congr_left fun x _ => x.marks_woken w

/-! ### Sound feeds -/

/-- How a leg fits its input.  A leg that waits and is to be asked has an input that may be asked
again, and no leg remains unread but one that is to be asked. -/
inductive Sound (key : α → Except CursorError Tuple) (limited : Bool) (asked : Prop) :
    Feed α → Prop
  | unread {t c l marks} (mark : marks t l) (due : asked) :
      Sound key limited asked ⟨.unread t c, ⟨c, none, l, marks⟩⟩
  | waiting {t wait o c l marks} (mark : marks t l) (awake : asked → o = none)
      (asleep : ¬asked → o = some wait) :
      Sound key limited asked ⟨.waiting t wait c, ⟨c, o, l, marks⟩⟩
  | front {t v k next rest l marks} (mark : marks t (v :: l)) (mark_next : marks next l)
      (key_eq : key v = .ok k) :
      Sound key limited asked ⟨.front t v k next rest, ⟨rest, none, l, marks⟩⟩
  | ended {r t c l marks} (mark : marks t l) (dry : r.isLimit = false → l = [])
      (under : r.isLimit = true → limited = true) :
      Sound key limited asked ⟨.ended r t, ⟨c, none, l, marks⟩⟩

variable {key : α → Except CursorError Tuple} {limited : Bool} {asked : Prop} {x : Feed α}

namespace Sound

theorem mark (h : Sound key limited asked x) : x.input.marks x.leg.token x.ahead := by
  cases h with
  | unread mark | waiting mark | front mark | ended mark => exact mark

theorem error? (h : Sound key limited asked x) : x.leg.error? = none := by cases h <;> rfl

theorem congr {asked' : Prop} (h : Sound key limited asked x) (ha : asked ↔ asked') :
    Sound key limited asked' x := propext ha ▸ h

/-- A leg that was not left unread fits its input also before it is known whether it is to be
asked. -/
theorem enter (h : Sound key limited False x) : Sound key limited (x.leg.wait? = none) x := by
  cases h with
  | unread _ due => exact due.elim
  | waiting mark _ asleep => exact .waiting mark (fun h => by cases h) fun _ => asleep id
  | front mark mark_next key_eq => exact .front mark mark_next key_eq
  | ended mark dry under => exact .ended mark dry under

theorem wait? (h : Sound key limited False x) : x.leg.wait? = x.input.wait := by
  cases h with
  | unread _ due => exact due.elim
  | waiting _ _ asleep => exact (asleep id).symm
  | front | ended => rfl

theorem source? (h : Sound key limited False x) (hw : x.leg.wait? = none) :
    x.leg.source? = none := by
  cases h with
  | unread _ due => exact due.elim
  | waiting => cases hw
  | front | ended => rfl

/-- Inputs are woken where their legs are to be asked. -/
theorem woken (h : Sound key limited (x.leg.wait? = none) x) {w : World}
    (hasked : asked ↔ x.leg.isDue w = true) :
    Sound key limited asked (x.woken w) := by
  cases h with
  | unread mark => exact .unread mark (hasked.2 rfl)
  | @waiting t wait o c l marks mark _ asleep =>
    obtain rfl := asleep nofun
    have hover : asked ↔ w.isOver wait = true := hasked
    unfold Feed.woken Input.woken
    rw [Option.any_some]
    split
    · rename_i h
      exact .waiting mark (fun _ => rfl) fun ha => absurd (hover.2 h) ha
    · rename_i h
      exact .waiting mark (fun ha => absurd (hover.1 ha) h) fun _ => rfl
  | front mark mark_next key_eq => exact .front mark mark_next key_eq
  | ended mark dry under => exact .ended mark dry under

end Sound

/-! ### Asking -/

/-- What a leg has become by being asked: it fits what its input has become, and no row that was
ahead is lost. -/
structure Asked (key : α → Except CursorError Tuple) (limited : Bool) (x y : Feed α) : Prop where
  sound : Sound key limited False y
  ahead : y.ahead = x.ahead
  marks : y.input.marks = x.input.marks

theorem exists_answered {t : Continuation} {c : Cursor α} {l : List α}
    {marks : Continuation → List α → Prop} (mark : marks t l) (hkeyed : ∀ v ∈ l, ∃ k, key v = .ok k)
    {S : List (Input α) → World → Prop} {xs : List (Input α)} {i : Nat}
    {answer : World × Progress α}
    (h : Answers limited S xs i (.unasked marks c l) answer) :
    ∃ y : Feed α, y.leg = Leg.answered key t answer.2 ∧ Sound key limited False y ∧ y.ahead = l ∧
      y.input.marks = marks ∧ S (xs.set i y.input) answer.1 := by
  rcases answer with ⟨w, reply | ⟨wait, rest⟩⟩
  · rcases reply with ⟨v, next, rest⟩ | ⟨r, t'⟩ | e
    · obtain ⟨l', hrows, hnext, h⟩ := h
      obtain rfl : l = v :: l' := hrows
      obtain ⟨k, hk⟩ := hkeyed v List.mem_cons_self
      refine ⟨⟨.front t v k next rest, _⟩, ?_, .front mark hnext hk, rfl, rfl, h⟩
      simp only [Leg.answered, hk]
    · obtain ⟨hdry, hunder, hmark, h⟩ := h
      exact ⟨⟨.ended r t', _⟩, rfl, .ended hmark hdry hunder, rfl, rfl, h⟩
    · exact h.elim
  · exact ⟨⟨.waiting t wait rest, _⟩, rfl, .waiting mark (fun h => h.elim) fun _ => rfl, rfl, rfl,
      h⟩

variable {xs : List (Feed α)} {w : World}

theorem exists_asked {i : Nat} (hx : xs[i]? = some x)
    (h : Sound key limited True x) (hkeyed : ∀ v ∈ x.ahead, ∃ k, key v = .ok k)
    (hsupply : Supplied limited (inputs xs) w) :
    ∃ y : Feed α, y.leg = (x.leg.read key w).2 ∧ Asked key limited x y ∧
      Supplied limited (inputs (xs.set i y)) (x.leg.read key w).1 := by
  have hin : (inputs xs)[i]? = some x.input := by
    rw [inputs, List.getElem?_map, hx, Option.map_some]
  have ask (hwait : x.input.wait = none) := supply_supplied.ask hsupply hin hwait
  have stay (hs : x.leg.source? = none) (hy : Sound key limited False x) :
      ∃ y : Feed α, y.leg = (x.leg.read key w).2 ∧ Asked key limited x y ∧
        Supplied limited (inputs (xs.set i y)) (x.leg.read key w).1 := by
    refine ⟨x, by rw [Leg.read, hs], ⟨hy, rfl, rfl⟩, ?_⟩
    obtain ⟨hi, rfl⟩ := List.getElem?_eq_some_iff.1 hx
    rwa [List.set_getElem_self, Leg.read, hs]
  cases h with
  | unread mark =>
    obtain ⟨y, hleg, hsound, hahead, hmarks, hS⟩ := exists_answered mark hkeyed (ask rfl)
    refine ⟨y, hleg, ⟨hsound, hahead, hmarks⟩, ?_⟩
    rw [inputs, List.map_set]
    exact hS
  | waiting mark awake =>
    obtain rfl := awake trivial
    obtain ⟨y, hleg, hsound, hahead, hmarks, hS⟩ := exists_answered mark hkeyed (ask rfl)
    refine ⟨y, hleg, ⟨hsound, hahead, hmarks⟩, ?_⟩
    rw [inputs, List.map_set]
    exact hS
  | front mark mark_next key_eq => exact stay rfl (.front mark mark_next key_eq)
  | ended mark dry under => exact stay rfl (.ended mark dry under)

theorem map_set_of_eq {xs : List β} {i : Nat} {x y : β} {g : β → γ} (hx : xs[i]? = some x)
    (hg : g y = g x) : (xs.set i y).map g = xs.map g := by
  induction xs generalizing i with
  | nil => cases hx
  | cons x' xs ih =>
    cases i with
    | zero =>
      cases hx
      exact congrArg (· :: xs.map g) hg
    | succ i => exact congrArg (g x' :: ·) (ih hx)

/-- Asking the legs at some places: no leg fails, and those at other places stay as they are. -/
theorem exists_read {places : List Nat} (hplaces : places.Nodup)
    (hsound : ∀ (i : Nat) (x : Feed α), xs[i]? = some x → Sound key limited (i ∈ places) x)
    (hkeyed : ∀ l ∈ xs.map ahead, ∀ v ∈ l, ∃ k, key v = .ok k)
    (hsupply : Supplied limited (inputs xs) w) :
    ∃ (w' : World) (xs' : List (Feed α)), Legs.read key places (legs xs) w = (w', .ok (legs xs')) ∧
      (∀ x ∈ xs', Sound key limited False x) ∧ xs'.map ahead = xs.map ahead ∧
      (inputs xs').map Input.marks = (inputs xs).map Input.marks ∧
      (∀ i ∉ places, (legs xs')[i]? = (legs xs)[i]?) ∧ Supplied limited (inputs xs') w' := by
  induction places generalizing xs w with
  | nil =>
    refine ⟨w, xs, rfl, fun x hx => ?_, rfl, rfl, fun _ _ => rfl, hsupply⟩
    obtain ⟨i, hi⟩ := List.mem_iff_getElem?.1 hx
    exact (hsound i x hi).congr (by simp)
  | cons i places ih =>
    obtain ⟨hi, hplaces⟩ := List.nodup_cons.1 hplaces
    -- whether another leg is to be asked does not depend on this one
    have other {j : Nat} (hji : j ≠ i) : j ∈ i :: places ↔ j ∈ places := by simp [hji]
    cases hx : xs[i]? with
    | none =>
      obtain ⟨w', xs', hread, hsound', hahead, hmarks, hkeep, hsupply'⟩ := ih hplaces
        (fun j x hj => (hsound j x hj).congr (other fun hji => by simp [hji, hx] at hj))
        hkeyed hsupply
      refine ⟨w', xs', ?_, hsound', hahead, hmarks, fun j hj => hkeep j fun h => ?_, hsupply'⟩
      · rw [Legs.read, legs, List.getElem?_map, hx]
        exact hread
      · exact hj (List.mem_cons_of_mem i h)
    | some x =>
      have hrows : x.ahead ∈ xs.map ahead := List.mem_map_of_mem (List.mem_of_getElem? hx)
      obtain ⟨y, hleg, hy, hsupply⟩ := exists_asked hx
        ((hsound i x hx).congr (by simp)) (hkeyed _ hrows) hsupply
      have hlt : i < xs.length := (List.getElem?_eq_some_iff.1 hx).1
      have hsound' (j : Nat) (z : Feed α) (hj : (xs.set i y)[j]? = some z) :
          Sound key limited (j ∈ places) z := by
        by_cases hji : j = i
        · subst hji
          rw [List.getElem?_set_self hlt, Option.some.injEq] at hj
          exact hj ▸ hy.sound.congr (by simp [hi])
        · rw [List.getElem?_set_ne (Ne.symm hji)] at hj
          exact (hsound j z hj).congr (other hji)
      have hahead : (xs.set i y).map ahead = xs.map ahead := map_set_of_eq hx hy.ahead
      obtain ⟨w', xs', hread, hsettled, hahead', hmarks, hkeep, hsupply'⟩ :=
        ih hplaces hsound' (hahead ▸ hkeyed) hsupply
      refine ⟨w', xs', ?_, hsettled, hahead'.trans hahead, ?_, fun j hj => ?_, hsupply'⟩
      · have hfault : Legs.fault? (legs (xs.set i y)) = none := Legs.fault?_eq_none fun l hl => by
          obtain ⟨z, hz, rfl⟩ := List.mem_map.1 hl
          obtain ⟨j, hj⟩ := List.mem_iff_getElem?.1 hz
          exact (hsound' j z hj).error?
        rw [legs, List.map_set, hleg] at hfault hread
        rw [Legs.read, legs, List.getElem?_map, hx, Option.map_some]
        simp only [hfault]
        exact hread
      · rw [hmarks, inputs, inputs, List.map_map, List.map_map]
        exact map_set_of_eq hx hy.marks
      · obtain ⟨hji, hj⟩ := not_or.1 (mt List.mem_cons.2 hj)
        rw [hkeep j hj, legs, legs, List.map_set, List.getElem?_set_ne (Ne.symm hji)]

end Feed

end ResumableQuery.Cursor
