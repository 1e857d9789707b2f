import Mathlib
import ResumableQuery.Error
import ResumableQuery.Position

/-!
# What a continuation stands for

Over a store that does not change, a continuation stands for all that a cursor opened there has
still to hand out when nothing limits it: rows one after the other, and then the end or a failure
(`Prospect`).  It also stands for the stored pairs that each scan below the cursor has still ahead
(`Outlook`), by which it shows whether one continuation is further along than another.  A `Reading`
tells both, for all the continuations that a kind of cursor issues.
-/

namespace ResumableQuery

/-- What a cursor hands out when nothing limits it. -/
inductive Prospect (α : Type) : Type where
  | row (value : α) (rest : Prospect α)
  | exhausted
  | failure

namespace Prospect

/-- The rows of a list, and then the end. -/
def ofList : List α → Prospect α
  | [] => exhausted
  | a :: rest => row a (ofList rest)

/-- Each row transformed by a function that may fail. -/
def tryMap (f : α → Except CursorError β) : Prospect α → Prospect β
  | row a rest =>
    match f a with
    | .ok b => row b (rest.tryMap f)
    | .error _ => failure
  | exhausted => exhausted
  | failure => failure

/-- The rows that satisfy a predicate. -/
def filter (p : α → Bool) : Prospect α → Prospect α
  | row a rest => if p a then row a (rest.filter p) else rest.filter p
  | exhausted => exhausted
  | failure => failure

/-- The number of rows. -/
def size : Prospect α → Nat
  | row _ rest => rest.size + 1
  | _ => 0

/-! ### Prospects under limits -/

/-- The first prospect is the second one.  Under limits a cursor may stop before it comes to a
failure, so a prospect that begins with a failure then says nothing. -/
def Yields (limited : Bool) (a b : Prospect α) : Prop := a = b ∨ limited = true ∧ a = failure

variable {limited : Bool} {a b c : Prospect α}

theorem Yields.refl (a : Prospect α) : a.Yields limited a := .inl rfl

theorem Yields.trans (h : a.Yields limited b) (k : b.Yields limited c) : a.Yields limited c := by
  rcases h with rfl | h
  · exact k
  · exact .inr h

theorem Yields.tryMap (f : α → Except CursorError β) (h : a.Yields limited b) :
    (a.tryMap f).Yields limited (b.tryMap f) := by
  rcases h with rfl | ⟨hl, rfl⟩
  · exact .refl _
  · exact .inr ⟨hl, rfl⟩

theorem Yields.filter (p : α → Bool) (h : a.Yields limited b) :
    (a.filter p).Yields limited (b.filter p) := by
  rcases h with rfl | ⟨hl, rfl⟩
  · exact .refl _
  · exact .inr ⟨hl, rfl⟩

theorem Yields.eq_failure (h : a.Yields limited failure) : a = failure := by
  rcases h with h | ⟨-, h⟩ <;> exact h

/-- A row that fails makes all of the prospect fail. -/
theorem Yields.tryMap_eq_failure {v : α} {f : α → Except CursorError β} {e : CursorError}
    (h : a.Yields limited (row v b)) (hf : f v = .error e) : a.tryMap f = failure := by
  rcases h with rfl | ⟨-, rfl⟩
  · rw [Prospect.tryMap, hf]
  · rfl

/-- The prospect hands out some rows, and then what it hands out is another prospect. -/
def Leads (limited : Bool) : Prospect α → List α → Prospect α → Prop
  | a, [], b => a.Yields limited b
  | a, v :: vs, b => ∃ rest, a.Yields limited (row v rest) ∧ rest.Leads limited vs b

theorem Yields.leads {vs : List α} (h : a.Yields limited b) (k : b.Leads limited vs c) :
    a.Leads limited vs c := by
  cases vs with
  | nil => exact h.trans k
  | cons v vs =>
    obtain ⟨rest, hv, k⟩ := k
    exact ⟨rest, h.trans hv, k⟩

/-- Without a failure ahead, the rows handed out are the first ones of those ahead, and the others
remain. -/
theorem Leads.of_ofList {l vs : List α} (h : (ofList l).Leads limited vs b) :
    ∃ rest, l = vs ++ rest ∧ b = ofList rest := by
  induction vs generalizing l with
  | nil =>
    rcases h with rfl | ⟨-, h⟩
    · exact ⟨l, rfl, rfl⟩
    · cases l <;> cases h
  | cons v vs ih =>
    obtain ⟨rest, h, k⟩ := h
    cases l with
    | nil => rcases h with h | ⟨-, h⟩ <;> cases h
    | cons u l =>
      rcases h with h | ⟨-, h⟩
      · cases h
        obtain ⟨rest, rfl, rfl⟩ := ih k
        exact ⟨rest, rfl, rfl⟩
      · cases h

theorem ofList_ne_failure (l : List α) : ofList l ≠ failure := by cases l <;> exact nofun

theorem ofList_injective {l l' : List α} (h : ofList l = ofList l') : l = l' := by
  induction l generalizing l' with
  | nil => cases l' <;> first | rfl | cases h
  | cons a l ih =>
    cases l' with
    | nil => cases h
    | cons a' l' =>
      obtain ⟨rfl, hl⟩ := row.inj h
      rw [ih hl]

theorem filter_ofList (p : α → Bool) (l : List α) : (ofList l).filter p = ofList (l.filter p) := by
  induction l with
  | nil => rfl
  | cons a l ih =>
    rw [ofList, filter, List.filter_cons]
    split
    · rw [ofList, ih]
    · exact ih

theorem tryMap_ofList {f : α → Except CursorError β} {g : α → β} {l : List α}
    (h : ∀ a ∈ l, f a = .ok (g a)) : (ofList l).tryMap f = ofList (l.map g) := by
  induction l with
  | nil => rfl
  | cons a l ih =>
    obtain ⟨ha, hl⟩ := List.forall_mem_cons.1 h
    rw [ofList, tryMap, ha, List.map_cons, ofList]
    exact congrArg (row (g a)) (ih hl)

theorem ofList_eq_exhausted {l : List α} (h : ofList l = exhausted) : l = [] := by
  cases l with
  | nil => rfl
  | cons => cases h

/-- Without limits, the rows handed out up to the end are all that was ahead. -/
theorem Leads.eq_ofList {vs : List α} (h : a.Leads false vs exhausted) : a = ofList vs := by
  induction vs generalizing a with
  | nil =>
    rcases h with h | ⟨h, -⟩
    · exact h
    · cases h
  | cons v vs ih =>
    obtain ⟨rest, h, k⟩ := h
    rcases h with rfl | ⟨h, -⟩
    · rw [ih k, ofList]
    · cases h

end Prospect

/-! ### Stored pairs ahead -/

/-- For each of some scans, the stored pairs that it has still ahead. -/
abbrev Outlook := List (List (Bytes × Bytes))

namespace Outlook

/-- No scan has moved back. -/
def Recedes (before after : Outlook) : Prop :=
  List.Forall₂ (fun ahead later => later <:+ ahead) before after

/-- No scan has moved back, and at least one has passed a stored pair. -/
def Advances (before after : Outlook) : Prop := before.Recedes after ∧ after ≠ before

/-- The number of pairs ahead, over all scans. -/
def count (o : Outlook) : Nat := (o.map List.length).sum

variable {o o' o'' : Outlook}

theorem Recedes.refl (o : Outlook) : o.Recedes o :=
  List.forall₂_same.2 fun _ _ => List.suffix_refl _

theorem Recedes.trans (h : o.Recedes o') (k : o'.Recedes o'') : o.Recedes o'' := by
  induction h generalizing o'' with
  | nil => exact k
  | cons h _ ih =>
    cases k with
    | cons k ks => exact .cons (k.trans h) (ih ks)

theorem Recedes.count_le (h : o.Recedes o') : o'.count ≤ o.count := by
  induction h with
  | nil => exact Nat.le_refl _
  | cons h _ ih => exact Nat.add_le_add h.length_le ih

theorem Recedes.eq_of_count_le (h : o.Recedes o') (hc : o.count ≤ o'.count) : o' = o := by
  induction h with
  | nil => rfl
  | @cons ahead later os os' h hs ih =>
    have hl := h.length_le
    have ht := Recedes.count_le hs
    have hc : ahead.length + count os ≤ later.length + count os' := hc
    rw [h.eq_of_length_le (by omega), ih (by omega)]

theorem advances_iff : o.Advances o' ↔ o.Recedes o' ∧ o'.count < o.count := by
  refine and_congr_right fun h => ⟨fun hne => ?_, fun hc heq => ?_⟩
  · by_contra hc
    exact hne (h.eq_of_count_le (by omega))
  · rw [heq] at hc
    omega

theorem Advances.count_lt (h : o.Advances o') : o'.count < o.count := (advances_iff.1 h).2

theorem Advances.trans_recedes (h : o.Advances o') (k : o'.Recedes o'') : o.Advances o'' := by
  have := k.count_le
  have := h.count_lt
  exact advances_iff.2 ⟨h.1.trans k, by omega⟩

theorem Recedes.trans_advances (h : o.Recedes o') (k : o'.Advances o'') : o.Advances o'' := by
  have := h.count_le
  have := k.count_lt
  exact advances_iff.2 ⟨h.trans k.1, by omega⟩

theorem Recedes.append {p p' : Outlook} (h : o.Recedes o') (k : p.Recedes p') :
    Recedes (o ++ p) (o' ++ p') := List.rel_append h k

theorem count_append (o p : Outlook) : count (o ++ p) = o.count + p.count := by
  rw [count, List.map_append, List.sum_append]
  rfl

theorem Advances.append_left {p p' : Outlook} (h : o.Advances o') (k : p.Recedes p') :
    Advances (o ++ p) (o' ++ p') := by
  have := h.count_lt
  have := k.count_le
  exact advances_iff.2 ⟨h.1.append k, by rw [count_append, count_append]; omega⟩

theorem Advances.append_right {p p' : Outlook} (h : o.Recedes o') (k : p.Advances p') :
    Advances (o ++ p) (o' ++ p') := by
  have := h.count_le
  have := k.count_lt
  exact advances_iff.2 ⟨h.append k.1, by rw [count_append, count_append]; omega⟩

end Outlook

/-! ### Readings -/

/-- What the continuations of a kind of cursor stand for. -/
structure Reading (α : Type) : Type where
  /-- Whether such a cursor hands out the continuation, or is opened at it by others. -/
  issued : Continuation → Prop
  /-- What a cursor opened at the continuation hands out. -/
  ahead : Continuation → Prospect α
  /-- The stored pairs that its scans have ahead. -/
  outlook : Continuation → Outlook
  issued_start : issued .start
  issued_done : issued .done
  ahead_done : ahead .done = .exhausted
  recedes_done {c : Continuation} : issued c → (outlook c).Recedes (outlook .done)

namespace Reading

variable (D : Reading α)

/-- No scan is further back at the second continuation. -/
def Reaches (c t : Continuation) : Prop := (D.outlook c).Recedes (D.outlook t)

/-- The second continuation is further along. -/
def Passes (c t : Continuation) : Prop := (D.outlook c).Advances (D.outlook t)

/-- The reading of rows that are transformed. -/
def tryMap (f : α → Except CursorError β) : Reading β where
  issued := D.issued
  ahead c := (D.ahead c).tryMap f
  outlook := D.outlook
  issued_start := D.issued_start
  issued_done := D.issued_done
  ahead_done := by rw [D.ahead_done, Prospect.tryMap]
  recedes_done := D.recedes_done

/-- The reading of rows that are filtered. -/
def filter (p : α → Bool) : Reading α where
  issued := D.issued
  ahead c := (D.ahead c).filter p
  outlook := D.outlook
  issued_start := D.issued_start
  issued_done := D.issued_done
  ahead_done := by rw [D.ahead_done, Prospect.filter]
  recedes_done := D.recedes_done

end Reading

end ResumableQuery
