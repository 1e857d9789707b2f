import Mathlib.Data.List.Basic
import ResumableQuery.Cursor.Merge

/-!
# Rows side by side

The rows that several legs have of one key, laid side by side.  A union hands out as many as the leg
that has most of them, in each place the row of the first leg that reaches there; an intersection
hands out those of the first leg in the places that all legs reach (`SetOperation.columns`).  Where
no leg has more than one, what counts is whether some leg has it or all do (`SetOperation.OfLegs`).
-/

namespace ResumableQuery

/-- Lists laid over each other: in each place what the first list has that reaches there. -/
def overlay : List (List α) → List α
  | [] => []
  | l :: ls => l ++ (overlay ls).drop l.length

/-- What the first list has in the places that all lists reach. -/
def shared : List (List α) → List α
  | [] => []
  | [l] => l
  | l :: l' :: ls => l.take (shared (l' :: ls)).length

/-- The rows of one key that a merge hands out, given those of each leg. -/
def SetOperation.columns : SetOperation → List (List α) → List α
  | .union => overlay
  | .intersection => shared

/-- Whether something is so of some legs or of all, as the operation asks. -/
def SetOperation.OfLegs : SetOperation → (β → Prop) → List β → Prop
  | .union, p, ls => ∃ l ∈ ls, p l
  | .intersection, p, ls => ∀ l ∈ ls, p l

section Columns

variable {a : α} {ls : List (List α)}

theorem overlay_map_tail (ls : List (List α)) : overlay (ls.map List.tail) = (overlay ls).tail := by
  induction ls with
  | nil => rfl
  | cons l ls ih =>
    cases l with
    | nil => simpa [overlay] using ih
    | cons a l => simp [overlay, ih]

theorem head?_overlay (ls : List (List α)) : (overlay ls).head? = ls.findSome? List.head? := by
  induction ls with
  | nil => rfl
  | cons l ls ih =>
    rw [List.findSome?_cons]
    cases l with
    | nil => exact ih
    | cons a l => rfl

/-- In each place the first list counts that reaches there. -/
theorem getElem?_overlay (ls : List (List α)) (j : Nat) :
    (overlay ls)[j]? = ls.findSome? (·[j]?) := by
  induction ls with
  | nil => rfl
  | cons l ls ih =>
    rw [overlay, List.getElem?_append, List.findSome?_cons]
    split
    · rename_i hj
      rw [List.getElem?_eq_getElem hj]
    · rename_i hj
      rw [List.getElem?_drop, Nat.add_sub_cancel' (Nat.le_of_not_lt hj), ih,
        List.getElem?_eq_none (Nat.le_of_not_lt hj)]

theorem length_overlay (ls : List (List α)) :
    (overlay ls).length = (ls.map List.length).max?.getD 0 := by
  induction ls with
  | nil => rfl
  | cons l ls ih =>
    rw [overlay, List.length_append, List.length_drop, ih, List.map_cons, List.max?_cons,
      Option.getD_some]
    cases (ls.map List.length).max? with
    | none => simp
    | some n =>
      show l.length + (n - l.length) = max l.length n
      omega

theorem mem_overlay (h : a ∈ overlay ls) : ∃ l ∈ ls, a ∈ l := by
  induction ls with
  | nil => cases h
  | cons l ls ih =>
    rw [overlay, List.mem_append] at h
    rcases h with h | h
    · exact ⟨l, List.mem_cons_self, h⟩
    · obtain ⟨l', hl', ha⟩ := ih (List.mem_of_mem_drop h)
      exact ⟨l', List.mem_cons_of_mem _ hl', ha⟩

theorem shared_map_tail (ls : List (List α)) : shared (ls.map List.tail) = (shared ls).tail := by
  induction ls using shared.induct with
  | case1 => rfl
  | case2 l => rfl
  | case3 l l' ls ih =>
    simp only [List.map_cons] at ih ⊢
    rw [shared, ih, shared]
    cases l with
    | nil => simp
    | cons a l => cases shared (l' :: ls) <;> simp

theorem prefix_shared (l : List α) (ls : List (List α)) : shared (l :: ls) <+: l := by
  cases ls with
  | nil => exact List.prefix_rfl
  | cons => exact List.take_prefix _ l

theorem min?_length_shared (l : List α) (ls : List (List α)) :
    ((l :: ls).map List.length).min? = some (shared (l :: ls)).length := by
  induction ls generalizing l with
  | nil => rfl
  | cons l' ls ih =>
    rw [List.map_cons, List.min?_cons, ih l', shared, List.length_take, Nat.min_comm]
    rfl

theorem shared_eq_nil_of_mem (h : [] ∈ ls) : shared ls = [] := by
  induction ls using shared.induct with
  | case1 => rfl
  | case2 l => rw [shared, List.mem_singleton.1 h]
  | case3 l l' ls ih =>
    rw [shared]
    rcases List.mem_cons.1 h with rfl | h
    · exact List.take_nil
    · rw [ih h, List.length_nil, List.take_zero]

theorem head?_shared (h : [] ∉ ls) : (shared ls).head? = ls.findSome? List.head? := by
  induction ls using shared.induct with
  | case1 => rfl
  | case2 l => cases l <;> rfl
  | case3 l l' ls ih =>
    rw [List.mem_cons, not_or] at h
    have ih := ih h.2
    rw [shared, List.findSome?_cons]
    cases l with
    | nil => exact absurd rfl h.1
    | cons a l =>
      cases hrest : shared (l' :: ls) with
      | nil =>
        -- the first of the other lists is not empty, so something is found in them
        rw [hrest, List.findSome?_cons] at ih
        cases l' with
        | nil => exact absurd List.mem_cons_self h.2
        | cons b l' => cases ih
      | cons b rest => rfl

theorem mem_shared (h : a ∈ shared ls) : ∃ l ∈ ls, a ∈ l := by
  induction ls using shared.induct with
  | case1 => cases h
  | case2 l => exact ⟨l, List.mem_cons_self, h⟩
  | case3 l l' ls ih => exact ⟨l, List.mem_cons_self, List.mem_of_mem_take h⟩

variable (o : SetOperation)

theorem columns_map_tail (ls : List (List α)) :
    o.columns (ls.map List.tail) = (o.columns ls).tail := by
  cases o with
  | union => exact overlay_map_tail ls
  | intersection => exact shared_map_tail ls

theorem head?_columns (h : o = .intersection → [] ∉ ls) :
    (o.columns ls).head? = ls.findSome? List.head? := by
  cases o with
  | union => exact head?_overlay ls
  | intersection => exact head?_shared (h rfl)

theorem mem_columns (h : a ∈ o.columns ls) : ∃ l ∈ ls, a ∈ l := by
  cases o with
  | union => exact mem_overlay h
  | intersection => exact mem_shared h

theorem length_columns_le {n : Nat} (h : ∀ l ∈ ls, l.length ≤ n) : (o.columns ls).length ≤ n := by
  cases o with
  | union =>
    show (overlay ls).length ≤ n
    induction ls with
    | nil => exact Nat.zero_le n
    | cons l ls ih =>
      obtain ⟨hl, hls⟩ := List.forall_mem_cons.1 h
      have := ih hls
      rw [overlay, List.length_append, List.length_drop]
      omega
  | intersection =>
    match ls with
    | [] => exact Nat.zero_le n
    | [l] => exact h l List.mem_cons_self
    | l :: _ :: _ => exact Nat.le_trans (List.length_take_le' _ l) (h l List.mem_cons_self)

/-- Where no list has other rows than one, the operation says of that row which lists must have it
for it to come. -/
theorem mem_columns_iff (hls : ls ≠ []) (h : ∀ l ∈ ls, ∀ b ∈ l, b = a) :
    a ∈ o.columns ls ↔ o.OfLegs (a ∈ ·) ls := by
  have hfound {l : List α} (hl : l ∈ ls) (ha : a ∈ l) : ls.findSome? List.head? = some a := by
    cases hsome : ls.findSome? List.head? with
    | none =>
      rw [List.head?_eq_none_iff.1 (List.findSome?_eq_none_iff.1 hsome l hl)] at ha
      cases ha
    | some b =>
      obtain ⟨l', hl', hb⟩ := List.exists_of_findSome?_eq_some hsome
      rw [h l' hl' b (List.mem_of_mem_head? hb)]
  cases o with
  | union =>
    refine ⟨mem_overlay, fun ⟨l, hl, ha⟩ => ?_⟩
    exact List.mem_of_mem_head? ((head?_overlay ls).trans (hfound hl ha))
  | intersection =>
    refine ⟨fun (ha : a ∈ shared ls) l hl => ?_, fun (hall : ∀ l ∈ ls, a ∈ l) => ?_⟩
    · have hne : l ≠ [] := by
        rintro rfl
        rw [shared_eq_nil_of_mem hl] at ha
        cases ha
      obtain ⟨b, hb⟩ := List.exists_mem_of_ne_nil l hne
      exact h l hl b hb ▸ hb
    · obtain ⟨l, hl⟩ := List.exists_mem_of_ne_nil ls hls
      have hnil : [] ∉ ls := fun hnil => List.not_mem_nil (hall [] hnil)
      exact List.mem_of_mem_head? ((head?_shared hnil).trans (hfound hl (hall l hl)))

theorem ofLegs_map {p : γ → Prop} {g : β → γ} {ls : List β} :
    o.OfLegs p (ls.map g) ↔ o.OfLegs (p ∘ g) ls := by
  cases o <;> simp [SetOperation.OfLegs]

theorem ofLegs_congr {p : β → Prop} {q : γ → Prop} {ls : List β} {ls' : List γ}
    (h : List.Forall₂ (fun l l' => p l ↔ q l') ls ls') : o.OfLegs p ls ↔ o.OfLegs q ls' := by
  induction h with
  | nil => cases o <;> simp [SetOperation.OfLegs]
  | cons h _ ih => cases o <;> simp_all [SetOperation.OfLegs]

theorem exists_of_ofLegs {p : β → Prop} {ls : List β} (hls : ls ≠ []) (h : o.OfLegs p ls) :
    ∃ l ∈ ls, p l := by
  cases o with
  | union => exact h
  | intersection =>
    obtain ⟨l, hl⟩ := List.exists_mem_of_ne_nil ls hls
    exact ⟨l, hl, h l hl⟩

theorem ofLegs_and {p : β → Prop} {q : Prop} {ls : List β} (hls : ls ≠ []) :
    o.OfLegs (fun l => q ∧ p l) ls ↔ q ∧ o.OfLegs p ls := by
  refine ⟨fun h => ?_, fun ⟨hq, h⟩ => ?_⟩
  · obtain ⟨-, -, hq, -⟩ := exists_of_ofLegs o hls h
    refine ⟨hq, ?_⟩
    cases o with
    | union =>
      obtain ⟨l, hl, -, hp⟩ := h
      exact ⟨l, hl, hp⟩
    | intersection => exact fun l hl => (h l hl).2
  · cases o with
    | union =>
      obtain ⟨l, hl, hp⟩ := h
      exact ⟨l, hl, hq, hp⟩
    | intersection => exact fun l hl => ⟨hq, h l hl⟩

end Columns

theorem findSome?_congr {g g' : α → Option β} {l : List α} (h : ∀ a ∈ l, g a = g' a) :
    l.findSome? g = l.findSome? g' := by
  have hfound := congrArg (List.findSome? id) (List.map_congr_left h)
  rwa [List.findSome?_map, List.findSome?_map] at hfound

end ResumableQuery
