import Mathlib.Algebra.GroupWithZero.Nat
import Mathlib.Data.List.Induction
import Mathlib.Data.Nat.Basic
import Mathlib.Order.Basic
import Mathlib.Order.Bounds.Defs
import ResumableQuery.Text.EditDistance

/-!
# Edits

A word is edited into another one piece by piece: a piece is a character that is kept, replaced,
deleted or inserted, or two neighbours that are swapped, and no piece is edited again.  The optimal
string alignment distance is the least cost of such edits (`alignmentDistance_isLeast`).  It is
at most the length of the longer word (`alignmentDistance_le_max`).

The last edit of two words leaves two shorter ones, so the distance of words obeys an equation on
their ends (`distanceFromEnds`).  The rows that are computed hold the distances of a beginning of one
word to the beginnings of the other (`distances`).
-/

namespace ResumableQuery.Text

/-! ### Edits of a word -/

/-- What becomes of a piece of a word. -/
inductive Edit where
  | keep (c : Char)
  | replace (c d : Char)
  | delete (c : Char)
  | insert (d : Char)
  /-- Two neighbours change places. -/
  | swap (c d : Char)
  deriving DecidableEq, Repr

namespace Edit

/-- The piece before the edit. -/
def source : Edit → List Char
  | keep c | replace c _ | delete c => [c]
  | insert _ => []
  | swap c d => [c, d]

/-- The piece after the edit. -/
def target : Edit → List Char
  | keep c => [c]
  | replace _ d | insert d => [d]
  | delete _ => []
  | swap c d => [d, c]

/-- Whatever is not kept costs one. -/
def cost : Edit → Nat
  | keep _ => 0
  | _ => 1

end Edit

/-- The first word can be edited into the second one at the cost. -/
def EditsTo (first second : List Char) (cost : Nat) : Prop :=
  ∃ edits : List Edit, edits.flatMap Edit.source = first ∧ edits.flatMap Edit.target = second ∧
    (edits.map Edit.cost).sum = cost

namespace EditsTo

variable {first second : List Char} {m n : Nat}

theorem nil : EditsTo [] [] 0 := ⟨[], rfl, rfl, rfl⟩

/-- One more edit at the end. -/
theorem concat (h : EditsTo first second n) (e : Edit) :
    EditsTo (first ++ e.source) (second ++ e.target) (n + e.cost) := by
  obtain ⟨edits, rfl, rfl, rfl⟩ := h
  exact ⟨edits ++ [e], by simp, by simp, by simp⟩

theorem min (h : EditsTo first second m) (h' : EditsTo first second n) :
    EditsTo first second (min m n) :=
  min_rec' (EditsTo first second) h h'

end EditsTo

/-! ### The equation of the distance -/

/-- The distance of two words that are given from their ends. -/
def distanceFromEnds : List Char → List Char → Nat
  | [], ys => ys.length
  | _ :: xs, [] => xs.length + 1
  | a :: xs, b :: ys =>
    let plain := min (min (distanceFromEnds (a :: xs) ys + 1) (distanceFromEnds xs (b :: ys) + 1))
      (distanceFromEnds xs ys + if a = b then 0 else 1)
    if a ≠ b ∧ ys.head? = some a ∧ xs.head? = some b then
      min plain (distanceFromEnds xs.tail ys.tail + 1)
    else plain
termination_by xs ys => xs.length + ys.length

section Ends

variable (a b : Char) (xs ys : List Char)

theorem distanceFromEnds_nil_right : distanceFromEnds xs [] = xs.length := by
  cases xs <;> simp only [distanceFromEnds, List.length_nil, List.length_cons]

theorem distanceFromEnds_keep :
    distanceFromEnds (a :: xs) (a :: ys) ≤ distanceFromEnds xs ys := by
  rw [distanceFromEnds, if_neg fun h => h.1 rfl, if_pos rfl]
  exact Nat.min_le_right _ _

/-- The distance is no more than without swaps. -/
theorem distanceFromEnds_le_plain :
    distanceFromEnds (a :: xs) (b :: ys) ≤
      min (min (distanceFromEnds (a :: xs) ys + 1) (distanceFromEnds xs (b :: ys) + 1))
        (distanceFromEnds xs ys + 1) := by
  have le_one : (if a = b then 0 else 1) ≤ 1 := by split <;> decide
  rw [distanceFromEnds]
  split <;> omega

theorem distanceFromEnds_replace :
    distanceFromEnds (a :: xs) (b :: ys) ≤ distanceFromEnds xs ys + 1 := by
  have := distanceFromEnds_le_plain a b xs ys
  omega

theorem distanceFromEnds_delete :
    distanceFromEnds (a :: xs) ys ≤ distanceFromEnds xs ys + 1 := by
  cases ys with
  | nil =>
    rw [distanceFromEnds_nil_right, distanceFromEnds_nil_right]
    exact Nat.le_refl _
  | cons b ys =>
    have := distanceFromEnds_le_plain a b xs ys
    omega

theorem distanceFromEnds_insert :
    distanceFromEnds xs (b :: ys) ≤ distanceFromEnds xs ys + 1 := by
  cases xs with
  | nil =>
    rw [distanceFromEnds, distanceFromEnds]
    exact Nat.le_refl _
  | cons a xs =>
    have := distanceFromEnds_le_plain a b xs ys
    omega

theorem distanceFromEnds_swap :
    distanceFromEnds (b :: a :: xs) (a :: b :: ys) ≤ distanceFromEnds xs ys + 1 := by
  by_cases h : b = a
  · subst h
    calc distanceFromEnds (b :: b :: xs) (b :: b :: ys)
        ≤ distanceFromEnds (b :: xs) (b :: ys) := distanceFromEnds_keep ..
      _ ≤ distanceFromEnds xs ys + 1 := distanceFromEnds_replace ..
  · rw [distanceFromEnds, if_pos ⟨h, rfl, rfl⟩]
    exact Nat.min_le_right _ _

/-- Replacing all of the shorter word takes no more edits than the longer one has characters. -/
theorem distanceFromEnds_le_max : distanceFromEnds xs ys ≤ max xs.length ys.length := by
  induction xs generalizing ys with
  | nil =>
    rw [distanceFromEnds]
    exact Nat.le_max_right _ _
  | cons a xs ih =>
    cases ys with
    | nil =>
      rw [distanceFromEnds_nil_right]
      exact Nat.le_max_left _ _
    | cons b ys =>
      calc distanceFromEnds (a :: xs) (b :: ys)
          ≤ distanceFromEnds xs ys + 1 := distanceFromEnds_replace ..
        _ ≤ max xs.length ys.length + 1 := Nat.add_le_add_right (ih ys) 1
        _ = max (a :: xs).length (b :: ys).length := (Nat.add_max_add_right ..).symm

/-- Of a pair of characters that is edited into a single one, one is kept if it is that one. -/
theorem distanceFromEnds_pair (c : Char) :
    distanceFromEnds [a, b] [c] = if a = c ∨ b = c then 1 else 2 := by
  simp only [distanceFromEnds, List.head?_nil, reduceCtorEq, false_and, and_false, if_false,
    List.length_nil]
  split_ifs <;> simp_all

end Ends

/-! ### Least cost -/

/-- No edits cost less than the distance. -/
theorem distanceFromEnds_le_cost (edits : List Edit) :
    distanceFromEnds (edits.flatMap Edit.source).reverse (edits.flatMap Edit.target).reverse ≤
      (edits.map Edit.cost).sum := by
  induction edits using List.reverseRecOn with
  | nil =>
    rw [List.flatMap_nil, List.flatMap_nil, List.reverse_nil, distanceFromEnds]
    exact Nat.le_refl 0
  | append_singleton edits e ih =>
    simp only [List.flatMap_append, List.flatMap_singleton, List.reverse_append, List.map_append,
      List.map_singleton, List.sum_append, List.sum_singleton]
    generalize (edits.flatMap Edit.source).reverse = xs at ih
    generalize (edits.flatMap Edit.target).reverse = ys at ih
    cases e with
    | keep c => exact Nat.le_trans (distanceFromEnds_keep c xs ys) ih
    | replace c d => exact Nat.le_trans (distanceFromEnds_replace c d xs ys) (Nat.succ_le_succ ih)
    | delete c => exact Nat.le_trans (distanceFromEnds_delete c xs ys) (Nat.succ_le_succ ih)
    | insert d => exact Nat.le_trans (distanceFromEnds_insert d xs ys) (Nat.succ_le_succ ih)
    | swap c d => exact Nat.le_trans (distanceFromEnds_swap c d xs ys) (Nat.succ_le_succ ih)

namespace EditsTo

theorem of_nil_left (ys : List Char) : EditsTo [] ys ys.length := by
  induction ys using List.reverseRecOn with
  | nil => exact nil
  | append_singleton ys b ih =>
    rw [List.length_append]
    exact ih.concat (.insert b)

theorem of_nil_right (xs : List Char) : EditsTo xs [] xs.length := by
  induction xs using List.reverseRecOn with
  | nil => exact nil
  | append_singleton xs a ih =>
    rw [List.length_append]
    exact ih.concat (.delete a)

/-- One more edit that is no swap. -/
theorem plain {a b : Char} {xs ys : List Char} {m n k : Nat}
    (insert : EditsTo (a :: xs).reverse ys.reverse m)
    (delete : EditsTo xs.reverse (b :: ys).reverse n) (replace : EditsTo xs.reverse ys.reverse k) :
    EditsTo (a :: xs).reverse (b :: ys).reverse
      (Min.min (Min.min (m + 1) (n + 1)) (k + if a = b then 0 else 1)) := by
  refine .min (.min ?_ ?_) ?_
  · have inserted := insert.concat (.insert b)
    rwa [Edit.source, List.append_nil, Edit.target, ← List.reverse_cons] at inserted
  · have deleted := delete.concat (.delete a)
    rwa [Edit.source, ← List.reverse_cons, Edit.target, List.append_nil] at deleted
  · rw [List.reverse_cons, List.reverse_cons]
    split
    · rename_i hab
      exact hab ▸ replace.concat (.keep a)
    · exact replace.concat (.replace a b)

theorem swap {c d : Char} {xs ys : List Char} {n : Nat} (h : EditsTo xs.reverse ys.reverse n) :
    EditsTo (d :: c :: xs).reverse (c :: d :: ys).reverse (n + 1) := by
  simp only [List.reverse_cons, List.append_assoc]
  exact h.concat (.swap c d)

/-- Edits at the cost of the distance. -/
theorem of_distanceFromEnds (xs ys : List Char) :
    EditsTo xs.reverse ys.reverse (distanceFromEnds xs ys) := by
  fun_induction distanceFromEnds xs ys with
  | case1 ys =>
    rw [← List.length_reverse]
    exact of_nil_left ys.reverse
  | case2 x xs =>
    rw [← List.length_cons (a := x), ← List.length_reverse]
    exact of_nil_right (x :: xs).reverse
  | case3 a xs b ys noSwap hswap insert delete replace swap =>
    obtain ⟨ys, rfl⟩ := List.head?_eq_some_iff.1 hswap.2.1
    obtain ⟨xs, rfl⟩ := List.head?_eq_some_iff.1 hswap.2.2
    exact (insert.plain delete replace).min swap.swap
  | case4 a xs b ys noSwap hswap insert delete replace => exact insert.plain delete replace

end EditsTo

/-! ### Rows -/

/-- The distances of a word to what was read of another one and to each longer beginning of that,
where `xs` is the word and `ys` what was read, both from their ends. -/
def distances (xs ys : List Char) : List Char → List Nat
  | [] => [distanceFromEnds xs ys]
  | b :: second => distanceFromEnds xs ys :: distances xs (b :: ys) second

theorem distances_eq_cons (xs ys second : List Char) :
    distances xs ys second = distanceFromEnds xs ys :: (distances xs ys second).tail := by
  cases second <;> rfl

/-- Before the first character of a word, as many characters are inserted as are read. -/
theorem distances_nil (ys second : List Char) :
    distances [] ys second = List.range' ys.length (second.length + 1) := by
  induction second generalizing ys with
  | nil => simp [distances, distanceFromEnds]
  | cons b second ih => rw [distances, ih, distanceFromEnds]; rfl

theorem getLastD_distances (xs ys second : List Char) :
    (distances xs ys second).getLastD 0 = distanceFromEnds xs (second.reverse ++ ys) := by
  induction second generalizing ys with
  | nil => rfl
  | cons b second ih =>
    rw [List.reverse_cons, List.append_assoc, List.singleton_append, ← ih, distances,
      distances_eq_cons]
    rfl

/-- A row is made from those of the beginnings that are shorter by one character and by two. -/
theorem cons_alignRow (a : Char) (xs ys second : List Char) (twoAbove : List Nat)
    (htwoAbove : xs ≠ [] →
      twoAbove = distances xs.tail ys.tail (ys.head?.toList ++ second)) :
    distanceFromEnds (a :: xs) ys :: alignRow a xs.head? ys.head? (distanceFromEnds (a :: xs) ys)
      second (distances xs ys second) twoAbove = distances (a :: xs) ys second := by
  induction second generalizing ys twoAbove with
  | nil => rfl
  | cons b second ih =>
    rw [distances, distances, distances_eq_cons xs (b :: ys), alignRow, ← distances_eq_cons]
    have here : distanceFromEnds (a :: xs) (b :: ys) = _ := distanceFromEnds.eq_3 a xs b ys
    have next := ih (b :: ys) (if ys.head?.isSome then twoAbove.tail else twoAbove) fun hxs => by
      rw [htwoAbove hxs]
      cases ys with
      | nil => rfl
      | cons y ys => rfl
    split
    · rename_i hswap
      obtain ⟨ys', rfl⟩ := List.head?_eq_some_iff.1 hswap.2.1
      obtain ⟨xs', rfl⟩ := List.head?_eq_some_iff.1 hswap.2.2
      have diagonal : twoAbove.head? = some (distanceFromEnds xs' ys') := by
        rw [htwoAbove (List.cons_ne_nil _ _)]
        rfl
      rw [if_pos hswap, List.tail_cons, List.tail_cons] at here
      rw [diagonal, Option.getD_some, ← here]
      exact congrArg _ next
    · rename_i hswap
      rw [if_neg hswap] at here
      rw [← here]
      exact congrArg _ next

/-- The last row is that of the whole word. -/
theorem alignRows_eq (xs first second : List Char) (lastRow : List Nat)
    (hlastRow : xs ≠ [] → lastRow = distances xs.tail [] second) :
    alignRows second xs.head? xs.length (distances xs [] second) lastRow first =
      distances (first.reverse ++ xs) [] second := by
  induction first generalizing xs lastRow with
  | nil => rfl
  | cons a first ih =>
    have next := cons_alignRow a xs [] second lastRow hlastRow
    rw [distanceFromEnds_nil_right, List.length_cons] at next
    rw [alignRows]
    show alignRows second _ _ ((xs.length + 1) :: alignRow a xs.head? ([] : List Char).head? _ _ _ _)
      _ first = _
    rw [next, List.reverse_cons, List.append_assoc, List.singleton_append]
    exact ih (a :: xs) _ fun _ => rfl

theorem alignmentDistance_eq (a b : String) :
    alignmentDistance a b = distanceFromEnds a.toList.reverse b.toList.reverse := by
  have first_row : distances [] [] b.toList = List.range (b.toList.length + 1) := by
    rw [distances_nil, List.length_nil, ← List.range_eq_range']
  have rows := alignRows_eq [] a.toList b.toList [] (absurd rfl)
  rw [first_row, List.append_nil] at rows
  rw [alignmentDistance]
  show (alignRows _ ([] : List Char).head? ([] : List Char).length _ _ _).getLastD 0 = _
  rw [rows, getLastD_distances, List.append_nil]

/-- The optimal string alignment distance of two words is the least cost at which one is edited into
the other. -/
theorem alignmentDistance_isLeast (a b : String) :
    IsLeast {n | EditsTo a.toList b.toList n} (alignmentDistance a b) := by
  rw [alignmentDistance_eq]
  constructor
  · have edits := EditsTo.of_distanceFromEnds a.toList.reverse b.toList.reverse
    rwa [List.reverse_reverse, List.reverse_reverse] at edits
  · rintro n ⟨edits, ha, hb, rfl⟩
    rw [← ha, ← hb]
    exact distanceFromEnds_le_cost edits

/-- The distance is at most the length of the longer word. -/
theorem alignmentDistance_le_max (a b : String) :
    alignmentDistance a b ≤ max a.toList.length b.toList.length := by
  have le_max := distanceFromEnds_le_max a.toList.reverse b.toList.reverse
  rwa [List.length_reverse, List.length_reverse, ← alignmentDistance_eq] at le_max

/-- A word of two characters is at the distance of two from a shorter one, unless that is one of
them. -/
theorem alignmentDistance_eq_two_iff {a b : String} {x y : Char} (ha : a.toList = [x, y])
    (hb : b.toList.length ≤ 1) :
    alignmentDistance a b = 2 ↔ b.toList ≠ [x] ∧ b.toList ≠ [y] := by
  rw [alignmentDistance_eq, ha]
  show distanceFromEnds [y, x] b.toList.reverse = 2 ↔ _
  cases hlist : b.toList with
  | nil =>
    rw [List.reverse_nil, distanceFromEnds_nil_right]
    simp
  | cons c cs =>
    rw [hlist] at hb
    obtain rfl := List.length_eq_zero_iff.1 (Nat.le_zero.1 (Nat.le_of_succ_le_succ hb))
    rw [List.reverse_singleton, distanceFromEnds_pair]
    simp [and_comm, eq_comm]

/-- Neighbours that were swapped stay so: nothing is inserted between them. -/
example : alignmentDistance "ca" "abc" = 3 := by decide +kernel

end ResumableQuery.Text
