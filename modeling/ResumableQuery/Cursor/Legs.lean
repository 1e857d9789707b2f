import ResumableQuery.Cursor.Leg

/-!
# Legs side by side

The legs of a merge are read side by side: each of them is asked for its next row, and those that
have to wait are asked again when their waits are over.

A few legs are looked at one after the other, and the first failure that is seen counts.  Of many
legs, only those are looked at that something has happened to, in the order in which it happened,
and failures are taken in the order of the legs: one counts as soon as all legs before it have
answered.
-/

namespace ResumableQuery.Cursor

/-- The legs of a merge. -/
abbrev Legs (α : Type) : Type := List (Leg α)

namespace Legs

open Descent

/-- The continuations of the legs. -/
def tokens (legs : Legs α) : List Continuation := legs.map Leg.token

/-- The row of the first leg whose key satisfies a predicate. -/
def valueIf (p : Tuple → Bool) (legs : Legs α) : Option α := legs.findSome? (Leg.valueIf p)

/-- The legs after every row was used whose key satisfies a predicate. -/
def useIf (p : Tuple → Bool) (legs : Legs α) : Legs α := legs.map (Leg.useIf p)

/-- The first limit for which a leg stopped. -/
def limit? (legs : Legs α) : Option StopReason := legs.findSome? Leg.limit?

/-- Of the keys that were read ahead, the first that no other one precedes. -/
def leading (precedes : Tuple → Tuple → Bool) (legs : Legs α) : Option Tuple :=
  (legs.filterMap Leg.key?).foldl
    (fun best k => if best.all (precedes k) then some k else best) none

/-- What the legs wait for that have not answered. -/
def waits (legs : Legs α) : List Wait := legs.filterMap Leg.wait?

/-- Whether the legs are few. -/
def areFew (legs : Legs α) : Bool := legs.length ≤ 30

/-- The places of the legs of which something holds. -/
def placesOf (p : Leg α → Bool) (legs : Legs α) : List Nat :=
  legs.zipIdx.filterMap fun (l, place) => if p l then some place else none

/-- The places of legs in the order in which something happened to them, given the order in which
they were last read: first what was never asked, then what waits for tasks that have ended, and then
what waits for a turn, the last one read first. -/
def inWakingOrder (lastRead : List Nat) (legs : Legs α) (w : World) : List Nat :=
  (legs.placesOf (·.wait?.isNone) ++
    w.ended.flatMap (fun (id, _) => legs.placesOf fun l => l.wait?.any (·.tasks.contains id)) ++
    lastRead.reverse).eraseDups

/-- The places of the legs that are to be asked now, given the order in which they were last
read. -/
def due (lastRead : List Nat) (legs : Legs α) (w : World) : List Nat :=
  (if legs.areFew then List.range legs.length else legs.inWakingOrder lastRead w).filter
    fun place => legs[place]?.any (·.isDue w)

/-- The failure that counts. -/
def fault? (legs : Legs α) : Option CursorError :=
  if legs.areFew then legs.findSome? Leg.error?
  else (legs.find? fun l => l.source?.isSome || l.error?.isSome).bind Leg.error?

/-- Asks the legs at some places in order, up to a failure that counts. -/
def read (key : α → Except CursorError Tuple) :
    (places : List Nat) → Legs α → World → World × Except CursorError (Legs α)
  | [], legs, w => (w, .ok legs)
  | place :: places, legs, w =>
    match legs[place]? with
    | none => read key places legs w
    | some leg =>
      let (w, leg) := leg.read key w
      match fault? (legs.set place leg) with
      | some e => (w, .error e)
      | none => read key places (legs.set place leg) w

/-! ### Reading comes to an end -/

theorem atMost_read {key : α → Except CursorError Tuple} {places : List Nat} {legs legs' : Legs α}
    {w w' : World} (h : read key places legs w = (w', .ok legs')) :
    AtMost Leg.Step legs' legs := by
  induction places generalizing legs w with
  | nil =>
    simp only [read, Prod.mk.injEq, Except.ok.injEq] at h
    exact h.2 ▸ .refl _
  | cons place places ih =>
    simp only [read] at h
    split at h
    · exact ih h
    · rename_i leg hleg
      split at h
      · simp at h
      · exact (ih h).trans (atMost_set hleg (leg.read_eq_or_step key w))

theorem below_read {key : α → Except CursorError Tuple} {place : Nat} {places : List Nat}
    {legs legs' : Legs α} {w w' : World} (hdue : (legs[place]?.any (·.isDue w)) = true)
    (h : read key (place :: places) legs w = (w', .ok legs')) : Below Leg.Step legs' legs := by
  simp only [read] at h
  cases hleg : legs[place]? with
  | none => simp [hleg] at hdue
  | some leg =>
    simp only [hleg, Option.any_some] at h hdue
    obtain ⟨c, hc⟩ := Leg.exists_source_of_isDue hdue
    split at h
    · simp at h
    · exact (atMost_read h).trans_below (below_set hleg (Leg.step_read key hc w))

theorem isDue_of_due_eq_cons {lastRead : List Nat} {legs : Legs α} {w : World} {place : Nat}
    {places : List Nat} (h : legs.due lastRead w = place :: places) :
    (legs[place]?.any (·.isDue w)) = true := by
  have : place ∈ legs.due lastRead w := h ▸ List.mem_cons_self
  exact (List.mem_filter.1 this).2

theorem atMost_useIf (p : Tuple → Bool) (legs : Legs α) : AtMost Leg.Step (useIf p legs) legs := by
  induction legs with
  | nil => exact .nil
  | cons leg rest ih =>
    rcases leg.useIf_eq_or_step p with h | h
    · simpa only [useIf, List.map_cons, h] using AtMost.same leg ih
    · exact .less (.single h) ih

theorem below_useIf {p : Tuple → Bool} {legs : Legs α} {v : α} (h : valueIf p legs = some v) :
    Below Leg.Step (useIf p legs) legs := by
  induction legs with
  | nil => simp [valueIf] at h
  | cons leg rest ih =>
    cases hv : leg.valueIf p with
    | some u => exact .here (.single (Leg.step_useIf hv)) (atMost_useIf p rest)
    | none =>
      have ih := ih (by simpa [valueIf, hv] using h)
      rcases leg.useIf_eq_or_step p with hl | hl
      · simpa only [useIf, List.map_cons, hl] using Below.there leg ih
      · exact .here (.single hl) ih.atMost

instance wellFoundedRelation : WellFoundedRelation (Legs α) :=
  ⟨Below Leg.Step, ⟨acc_below Leg.acc_step⟩⟩

end Legs

end ResumableQuery.Cursor
