import Mathlib.Data.List.Basic
import ResumableQuery.Cursor.Basic

/-!
# Cursors read side by side

Cursors that are read side by side share a world: they draw on the same budgets, and the tasks of
all of them go on while one of them waits.  What is assumed of them is that each keeps to rows of
its own all the same, in whatever order they are asked.  So that nothing has to be said about how
they do it, this is an invariant of all the cursors and the world together which asking, waking and
waiting keep (`Supply`), and cursors are supplied if there is such an invariant (`Supplied`).

Cursors that pay no heed to the world are supplied with the rows that each of them hands out by
itself (`supplied_of_steady`).
-/

namespace ResumableQuery

/-! ### Waits -/

namespace World

/-- The wait for any of several is over as soon as one of them is. -/
theorem isOver_any (w : World) (waits : List Wait) :
    w.isOver (.any waits) = waits.any w.isOver := by
  induction waits with
  | nil => rfl
  | cons wait waits ih =>
    rw [List.any_cons, ← ih]
    simp only [isOver, Wait.any, List.any_cons, List.flatMap_cons, List.any_append]
    cases wait.turn <;> cases wait.tasks.any w.hasEnded <;> simp

/-- How long a wait takes depends on when it is over only. -/
theorem await_congr {a b : Wait} (h : ∀ w : World, w.isOver a = w.isOver b) (w : World) :
    w.await a = w.await b := by
  have within (n : Nat) (w : World) : awaitWithin n a w = awaitWithin n b w := by
    induction n generalizing w with
    | zero => rfl
    | succ n ih => simp only [awaitWithin, h, ih]
  exact within _ w

end World

namespace Cursor

/-! ### Inputs -/

/-- A cursor that is read beside others: what is still to be asked for rows, what it waits for since
it was asked, the rows that it has still to hand out, and which rows may be left at which
continuation. -/
structure Input (α : Type) : Type where
  cursor : Cursor α
  wait : Option Wait
  rows : List α
  marks : Continuation → List α → Prop

namespace Input

/-- A cursor that was not asked yet, its rows, and what its continuations stand for. -/
def unasked (marks : Continuation → List α → Prop) (c : Cursor α) (rows : List α) : Input α :=
  ⟨c, none, rows, marks⟩

/-- The input once it may be asked again, if its wait is over. -/
def woken (w : World) (x : Input α) : Input α :=
  if x.wait.any w.isOver then { x with wait := none } else x

theorem rows_woken (w : World) (x : Input α) : (x.woken w).rows = x.rows := by
  unfold woken
  split <;> rfl

theorem marks_woken (w : World) (x : Input α) : (x.woken w).marks = x.marks := by
  unfold woken
  split <;> rfl

/-- What inputs wait for. -/
def waits (xs : List (Input α)) : List Wait := xs.filterMap Input.wait

end Input

/-- The answer of an input is its next row, or it has to wait, or it ends: for lack of rows or, under
limits, before.  What follows of all the inputs is what a predicate asks. -/
def Answers (limited : Bool) (S : List (Input α) → World → Prop) (xs : List (Input α)) (i : Nat)
    (x : Input α) : World × Progress α → Prop
  | (w, .ready (.row v t rest)) =>
    ∃ l, x.rows = v :: l ∧ x.marks t l ∧ S (xs.set i { x with cursor := rest, rows := l }) w
  | (w, .ready (.stop r t)) =>
    (r.isLimit = false → x.rows = []) ∧ (r.isLimit = true → limited = true) ∧ x.marks t x.rows ∧
      S (xs.set i { x with cursor := .stop r t }) w
  | (_, .ready (.fail _)) => False
  | (w, .pending wait rest) => S (xs.set i { x with cursor := rest, wait := some wait }) w

/-- What inputs and the world come to, however the inputs are asked: each hands out its rows, and
where inputs wait, one of them can be asked again in the end. -/
structure Supply (limited : Bool) (S : List (Input α) → World → Prop) : Prop where
  ask {xs : List (Input α)} {w : World} {i : Nat} {x : Input α} : S xs w → xs[i]? = some x →
    x.wait = none → Answers limited S xs i x (x.cursor.poll w)
  wake {xs : List (Input α)} {w : World} : S xs w → S (xs.map (Input.woken w)) w
  await {xs : List (Input α)} {w : World} : S xs w → Input.waits xs ≠ [] →
    S xs (w.await (.any (Input.waits xs))) ∧
      (w.await (.any (Input.waits xs))).isOver (.any (Input.waits xs)) = true

/-- However the inputs are asked from a world on, each hands out its rows. -/
def Supplied (limited : Bool) (xs : List (Input α)) (w : World) : Prop :=
  ∃ S, Supply limited S ∧ S xs w

variable {limited : Bool}

theorem Answers.mono {S S' : List (Input α) → World → Prop} {xs xs' : List (Input α)} {i j : Nat}
    {x : Input α} {answer : World × Progress α} (h : Answers limited S xs i x answer)
    (hS : ∀ y w, S (xs.set i y) w → S' (xs'.set j y) w) : Answers limited S' xs' j x answer := by
  rcases answer with ⟨w, reply | ⟨wait, rest⟩⟩
  · rcases reply with ⟨v, t, rest⟩ | ⟨r, t⟩ | e
    · obtain ⟨l, hrows, hmark, h⟩ := h
      exact ⟨l, hrows, hmark, hS _ _ h⟩
    · obtain ⟨hdry, hunder, hmark, h⟩ := h
      exact ⟨hdry, hunder, hmark, hS _ _ h⟩
    · exact h
  · exact hS _ _ h

/-- Being supplied is an invariant of the kind that it asks for. -/
theorem supply_supplied : Supply limited (Supplied (α := α) limited) where
  ask := fun ⟨S, hS, h⟩ hx hwait => (hS.ask h hx hwait).mono fun _ _ h => ⟨S, hS, h⟩
  wake := fun ⟨S, hS, h⟩ => ⟨S, hS, hS.wake h⟩
  await := fun ⟨S, hS, h⟩ hne => ⟨⟨S, hS, (hS.await h hne).1⟩, (hS.await h hne).2⟩

/-! ### Inputs in another order -/

/-- Where lists have the same members, replacing a member of one can be done in the other. -/
theorem exists_perm_set {xs ys : List β} (h : xs.Perm ys) {i : Nat} {y : β}
    (hy : ys[i]? = some y) :
    ∃ j, xs[j]? = some y ∧ ∀ z, (xs.set j z).Perm (ys.set i z) := by
  obtain ⟨hi, rfl⟩ := List.getElem?_eq_some_iff.1 hy
  obtain ⟨a, b, rfl⟩ := List.append_of_mem (h.mem_iff.2 (List.getElem_mem hi))
  have hset (z : β) : ys.set i z = ys.take i ++ z :: ys.drop (i + 1) := by
    rw [List.set_eq_take_append_cons_drop, if_pos hi]
  have hys : ys = ys.take i ++ ys[i] :: ys.drop (i + 1) := by
    rw [← hset, List.set_getElem_self]
  refine ⟨a.length, by simp, fun z => ?_⟩
  have hrest : (a ++ b).Perm (ys.take i ++ ys.drop (i + 1)) :=
    (List.perm_middle.symm.trans
      (h.trans ((List.Perm.of_eq hys).trans List.perm_middle))).cons_inv
  rw [hset, List.set_append_right _ _ (Nat.le_refl _), Nat.sub_self, List.set_cons_zero]
  exact List.perm_middle.trans ((hrest.cons z).trans List.perm_middle.symm)

theorem await_waits_of_perm {xs ys : List (Input α)} (h : xs.Perm ys) (w : World) :
    w.await (.any (Input.waits xs)) = w.await (.any (Input.waits ys)) := by
  refine World.await_congr (fun w => ?_) w
  rw [World.isOver_any, World.isOver_any]
  exact (h.filterMap _).any_eq

/-- The order of the inputs does not matter. -/
theorem Supplied.perm {xs ys : List (Input α)} {w : World} (h : Supplied limited xs w)
    (hperm : xs.Perm ys) : Supplied limited ys w := by
  obtain ⟨S, hS, h⟩ := h
  refine ⟨fun ys w => ∃ xs, xs.Perm ys ∧ S xs w, ⟨?_, ?_, ?_⟩, xs, hperm, h⟩
  · rintro ys w i y ⟨xs, hperm, h⟩ hy hwait
    obtain ⟨j, hj, hset⟩ := exists_perm_set hperm hy
    exact (hS.ask h hj hwait).mono fun z _ h => ⟨_, hset z, h⟩
  · rintro ys w ⟨xs, hperm, h⟩
    exact ⟨_, hperm.map _, hS.wake h⟩
  · rintro ys w ⟨xs, hperm, h⟩ hne
    have hwaits : (Input.waits xs).Perm (Input.waits ys) := hperm.filterMap _
    obtain ⟨h, hover⟩ := hS.await h fun hnil => hne (List.nil_perm.1 (hnil ▸ hwaits))
    rw [await_waits_of_perm hperm] at h hover
    refine ⟨⟨xs, hperm, h⟩, ?_⟩
    rw [World.isOver_any] at hover ⊢
    rwa [← hwaits.any_eq]

/-! ### Inputs that pay no heed to the world -/

/-- Whatever the world is, the cursor hands out the rows of a list, or under limits the first ones,
and it waits for turns only.  Each continuation stands for the rows that are left there. -/
inductive Hands (marks : Continuation → List α → Prop) (limited : Bool) : Cursor α → List α → Prop
  | row {v t rest l} (mark : marks t l) (rest_hands : Hands marks limited (rest ()) l) :
      Hands marks limited (.row v t rest) (v :: l)
  | stop {r t l} (dry : r.isLimit = false → l = []) (under : r.isLimit = true → limited = true)
      (mark : marks t l) : Hands marks limited (.stop r t) l
  | consult {k l} (each : ∀ w, Hands marks limited (k w) l) : Hands marks limited (.consult k) l
  | commit {w c l} (then_hands : Hands marks limited c l) : Hands marks limited (.commit w c) l
  | pause {wait rest l} (turn : wait.turn = true) (rest_hands : Hands marks limited (rest ()) l) :
      Hands marks limited (.pause wait rest) l

/-- The input hands out its rows, and it waits for turns only. -/
def Input.Steady (limited : Bool) (x : Input α) : Prop :=
  Hands x.marks limited x.cursor x.rows ∧ ∀ wait, x.wait = some wait → wait.turn = true

section Steady

variable {marks : Continuation → List α → Prop} {c : Cursor α} {l : List α}

theorem Hands.steady (h : Hands marks limited c l) :
    (Input.unasked marks c l).Steady limited := ⟨h, nofun⟩

theorem Hands.steady_waiting (h : Hands marks limited c l) {wait : Wait}
    (turn : wait.turn = true) : Input.Steady limited ⟨c, some wait, l, marks⟩ :=
  ⟨h, fun _ hwait => Option.some.inj hwait ▸ turn⟩

theorem Hands.answers {S : List (Input α) → World → Prop} {xs : List (Input α)} {i : Nat}
    (h : Hands marks limited c l) (w : World)
    (hS : ∀ y : Input α, y.Steady limited → ∀ w, S (xs.set i y) w) :
    Answers limited S xs i (.unasked marks c l) (c.poll w) := by
  induction h generalizing w with
  | row mark rest_hands => exact ⟨_, rfl, mark, hS _ rest_hands.steady _⟩
  | stop dry under mark =>
    exact ⟨dry, under, mark, hS _ (Hands.stop dry under mark).steady _⟩
  | consult _ ih => exact ih w w
  | @commit w' _ _ _ ih => exact ih w'
  | pause turn rest_hands => exact hS _ (rest_hands.steady_waiting turn) _

end Steady

theorem isOver_of_turn {wait : Wait} (h : wait.turn = true) (w : World) : w.isOver wait = true := by
  rw [World.isOver, h, Bool.true_or]

/-- Inputs that pay no heed to the world are supplied in every world. -/
theorem supplied_of_steady {xs : List (Input α)} (h : ∀ x ∈ xs, x.Steady limited) (w : World) :
    Supplied limited xs w := by
  refine ⟨fun xs _ => ∀ x ∈ xs, x.Steady limited, ⟨?_, ?_, ?_⟩, h⟩
  · rintro xs w i ⟨c, wait, l, marks⟩ h hx rfl
    refine (h _ (List.mem_of_getElem? hx)).1.answers w fun y hy w z hz => ?_
    rcases List.mem_or_eq_of_mem_set hz with hz | rfl
    · exact h z hz
    · exact hy
  · intro xs w h x hx
    obtain ⟨y, hy, rfl⟩ := List.mem_map.1 hx
    unfold Input.woken
    split
    · exact ⟨(h y hy).1, nofun⟩
    · exact h y hy
  · intro xs w h hne
    obtain ⟨wait, hwait⟩ := List.exists_mem_of_ne_nil _ hne
    obtain ⟨x, hx, hxw⟩ := List.mem_filterMap.1 hwait
    refine ⟨h, ?_⟩
    rw [World.isOver_any]
    exact List.any_eq_true.2 ⟨wait, hwait, isOver_of_turn ((h x hx).2 wait hxw) _⟩

end Cursor

end ResumableQuery
