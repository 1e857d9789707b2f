import Mathlib.Data.List.Basic
import ResumableQuery.Bytes

/-!
# Order of byte strings

Byte strings are in lexicographic order.  Beginnings fit this order: what lies between a byte string
and one that begins with it begins with it too (`prefix_of_not_before`).
-/

namespace ResumableQuery.Bytes

theorem before_iff {a b : Bytes} : a.before b = true ↔ compare a b = .lt := beq_iff_eq

theorem before_trans {a b c : Bytes} (h : a.before b = true) (k : b.before c = true) :
    a.before c = true :=
  before_iff.2 (Std.TransCmp.lt_trans (before_iff.1 h) (before_iff.1 k))

theorem before_of_not_before {a b c : Bytes} (h : a.before b = true) (k : c.before b = false) :
    a.before c = true := by
  cases hc : compare c b with
  | lt => rw [before_iff.2 hc] at k; cases k
  | eq => rwa [Std.LawfulEqCmp.eq_of_compare hc]
  | gt => exact before_trans h (before_iff.2 (Std.OrientedCmp.gt_iff_lt.1 hc))

/-- No key lies strictly between a key and the same with a zero byte at its end. -/
theorem before_concat_zero (a b : Bytes) : a.before (b ++ [0]) = !b.before a := by
  induction a generalizing b with
  | nil => cases b <;> rfl
  | cons x a ih =>
    cases b with
    | nil =>
      have h0 : (compare x 0).then (compare a []) ≠ .lt := by
        have hx : compare x 0 ≠ .lt := by
          show compareOfLessAndEq x 0 ≠ .lt
          rw [compareOfLessAndEq, if_neg (by simp)]
          split <;> exact nofun
        have ha : compare a [] ≠ .lt := by cases a <;> exact nofun
        cases h : compare x 0 <;> simp_all
      show (compare (x :: a) [0] == .lt) = false
      rw [List.compare_cons_cons]
      exact beq_false_of_ne h0
    | cons y b =>
      have ih := ih b
      simp only [before] at ih ⊢
      have hswap : compare y x = (compare x y).swap := Std.OrientedCmp.eq_swap
      rw [List.cons_append, List.compare_cons_cons, List.compare_cons_cons, hswap]
      cases compare x y with
      | lt | gt => rfl
      | eq => exact ih

theorem cons_before_cons_iff {x y : UInt8} {a b : Bytes} :
    Bytes.before (x :: a) (y :: b) = true ↔ x < y ∨ x = y ∧ a.before b = true := by
  rw [before_iff, before_iff, List.compare_cons_cons, Ordering.then_eq_lt, Std.compare_eq_lt,
    Std.compare_eq_iff_eq]

theorem not_before_nil (a : Bytes) : a.before [] = false := by
  cases a <;> rfl

theorem append_before_append (c a b : Bytes) : (c ++ a).before (c ++ b) = a.before b := by
  induction c with
  | nil => rfl
  | cons x c ih =>
    rw [← ih, Bool.eq_iff_iff, List.cons_append, List.cons_append, cons_before_cons_iff]
    simp

theorem not_before_of_prefix {a k : Bytes} (h : a <+: k) : k.before a = false := by
  obtain ⟨rest, rfl⟩ := h
  have := append_before_append a rest []
  rwa [List.append_nil, not_before_nil] at this

theorem prefix_of_not_before {a k rest : Bytes} (hk : k.before a = false)
    (hrest : k.before (a ++ rest) = true) : a <+: k := by
  induction a generalizing k with
  | nil => exact List.nil_prefix
  | cons x a ih =>
    cases k with
    | nil => cases hk
    | cons y k =>
      have hnot := Bool.eq_false_iff.1 hk
      rw [Ne, cons_before_cons_iff, not_or, not_and] at hnot
      rw [List.cons_append, cons_before_cons_iff] at hrest
      rcases hrest with hlt | ⟨rfl, hrest⟩
      · exact absurd hlt hnot.1
      · exact List.cons_prefix_cons.2 ⟨rfl, ih (Bool.eq_false_iff.2 (hnot.2 rfl)) hrest⟩

end ResumableQuery.Bytes
