import ResumableQuery.Cursor.Basic

/-!
# Descent

Asking a cursor for rows comes to an end, whatever happens to the world in between: the relation
between a cursor and the rest after a row is well-founded.  The same holds of several cursors that
are read side by side, where each step takes at least one of them further and none of them back.
-/

namespace ResumableQuery

namespace Cursor

/-- In some world, `rest` is what remains of `c` after a row or a pause. -/
def Precedes (rest c : Cursor α) : Prop :=
  ∃ w w', (∃ v t, c.poll w = (w', .ready (.row v t rest))) ∨
    ∃ wait, c.poll w = (w', .pending wait rest)

theorem acc_precedes (c : Cursor α) : Acc Precedes c := by
  induction c with
  | row v t rest ih =>
    refine ⟨_, fun y ⟨w, w', h⟩ => ?_⟩
    simp only [poll, Prod.mk.injEq, Progress.ready.injEq, Reply.row.injEq, reduceCtorEq, and_false,
      exists_false, or_false] at h
    obtain ⟨_, _, _, _, _, h⟩ := h
    exact h ▸ ih ()
  | stop r t => exact ⟨_, fun y ⟨w, w', h⟩ => by simp [poll] at h⟩
  | fail e => exact ⟨_, fun y ⟨w, w', h⟩ => by simp [poll] at h⟩
  | consult k ih => exact ⟨_, fun y ⟨w, w', h⟩ => (ih w).inv ⟨w, w', h⟩⟩
  | commit w₀ c ih => exact ⟨_, fun y ⟨w, w', h⟩ => ih.inv ⟨w₀, w', h⟩⟩
  | pause wait rest ih =>
    refine ⟨_, fun y ⟨w, w', h⟩ => ?_⟩
    simp only [poll, Prod.mk.injEq, Progress.pending.injEq, reduceCtorEq, and_false, exists_false,
      false_or] at h
    obtain ⟨_, _, _, h⟩ := h
    exact h ▸ ih ()

end Cursor

namespace Descent

variable {σ : Type} {r : σ → σ → Prop}

/-- Each member of the first list is the corresponding member of the second or below it. -/
inductive AtMost (r : σ → σ → Prop) : List σ → List σ → Prop
  | nil : AtMost r [] []
  | same (a : σ) {as' as : List σ} : AtMost r as' as → AtMost r (a :: as') (a :: as)
  | less {a' a : σ} {as' as : List σ} : Relation.TransGen r a' a → AtMost r as' as →
      AtMost r (a' :: as') (a :: as)

/-- As `AtMost`, with at least one member below. -/
inductive Below (r : σ → σ → Prop) : List σ → List σ → Prop
  | here {a' a : σ} {as' as : List σ} : Relation.TransGen r a' a → AtMost r as' as →
      Below r (a' :: as') (a :: as)
  | there (a : σ) {as' as : List σ} : Below r as' as → Below r (a :: as') (a :: as)

theorem AtMost.refl (as : List σ) : AtMost r as as := by
  induction as with
  | nil => exact .nil
  | cons a as ih => exact .same a ih

theorem Below.atMost {as' as : List σ} (h : Below r as' as) : AtMost r as' as := by
  induction h with
  | here h hs => exact .less h hs
  | there a _ ih => exact .same a ih

theorem AtMost.eq_or_below {as' as : List σ} (h : AtMost r as' as) : as' = as ∨ Below r as' as := by
  induction h with
  | nil => exact .inl rfl
  | same a _ ih =>
    rcases ih with rfl | h
    · exact .inl rfl
    · exact .inr (.there a h)
  | less h hs _ => exact .inr (.here h hs)

theorem AtMost.trans {as bs cs : List σ} (h : AtMost r as bs) (k : AtMost r bs cs) :
    AtMost r as cs := by
  induction k generalizing as with
  | nil => exact h
  | same a _ ih =>
    cases h with
    | same _ h => exact .same a (ih h)
    | less l h => exact .less l (ih h)
  | less l _ ih =>
    cases h with
    | same _ h => exact .less l (ih h)
    | less l' h => exact .less (l'.trans l) (ih h)

theorem Below.trans_atMost {as bs cs : List σ} (h : Below r as bs) (k : AtMost r bs cs) :
    Below r as cs := by
  induction k generalizing as with
  | nil => cases h
  | same a k ih =>
    cases h with
    | here l h => exact .here l (h.trans k)
    | there _ h => exact .there a (ih h)
  | less l k _ =>
    cases h with
    | here l' h => exact .here (l'.trans l) (h.trans k)
    | there _ h => exact .here l (h.atMost.trans k)

theorem AtMost.trans_below {as bs cs : List σ} (h : AtMost r as bs) (k : Below r bs cs) :
    Below r as cs := by
  rcases h.eq_or_below with rfl | h
  · exact k
  · exact h.trans_atMost k.atMost

theorem atMost_set {as : List σ} {i : Nat} {a a' : σ} (ha : as[i]? = some a)
    (h : a' = a ∨ r a' a) : AtMost r (as.set i a') as := by
  induction as generalizing i with
  | nil => simp at ha
  | cons b as ih =>
    cases i with
    | zero =>
      obtain rfl : b = a := by simpa using ha
      rcases h with rfl | h
      · exact .refl _
      · exact .less (.single h) (.refl _)
    | succ i => exact .same _ (ih (by simpa using ha))

theorem below_set {as : List σ} {i : Nat} {a a' : σ} (ha : as[i]? = some a) (h : r a' a) :
    Below r (as.set i a') as := by
  induction as generalizing i with
  | nil => simp at ha
  | cons b as ih =>
    cases i with
    | zero =>
      obtain rfl : b = a := by simpa using ha
      exact .here (.single h) (.refl _)
    | succ i => exact .there _ (ih (by simpa using ha))

theorem acc_cons (a : σ) (ha : Acc (Relation.TransGen r) a) :
    ∀ as, Acc (Below r) as → Acc (Below r) (a :: as) := by
  induction ha with
  | intro a _ iha =>
    intro as has
    induction has with
    | intro as has ihas =>
      refine ⟨_, fun ys h => ?_⟩
      cases h with
      | here l hs =>
        refine iha _ l _ ?_
        rcases hs.eq_or_below with rfl | hs
        · exact ⟨_, has⟩
        · exact has _ hs
      | there _ h => exact ihas _ h

theorem acc_below (hr : ∀ a, Acc r a) (as : List σ) : Acc (Below r) as := by
  induction as with
  | nil => exact ⟨_, fun _ h => by cases h⟩
  | cons a as ih => exact acc_cons a (hr a).transGen as ih

end Descent

end ResumableQuery
