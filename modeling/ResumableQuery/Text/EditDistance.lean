/-!
# Edit distance

The optimal string alignment distance of two words is the least number of insertions, deletions,
replacements and swaps of neighbours that turn one into the other, where no part is edited twice.
It is computed row by row: a row holds the distances of one prefix of the first word to every
prefix of the second.
-/

namespace ResumableQuery.Text

/-- The rest of a row.  `a` is the last character of the prefix and `before` the one before it;
`second` are the characters of the second word still to come and `passed` the one just passed.
`above` is the row before, from the entry diagonally above on, `twoAbove` the row before that from
one entry further left, and `left` the entry to the left. -/
def alignRow (a : Char) (before : Option Char) (passed : Option Char) (left : Nat) :
    (second : List Char) → (above twoAbove : List Nat) → List Nat
  | b :: second, diagonal :: up :: above, twoAbove =>
    let plain := min (min (left + 1) (up + 1)) (diagonal + if a = b then 0 else 1)
    let here :=
      if a ≠ b ∧ passed = some a ∧ before = some b then
        min plain ((twoAbove.head?.getD plain) + 1)
      else plain
    let twoAbove := if passed.isSome then twoAbove.tail else twoAbove
    here :: alignRow a before (some b) here second (up :: above) twoAbove
  | _, _, _ => []

/-- The last row, from the rows of the prefix read so far and of the one before it. -/
def alignRows (second : List Char) (before : Option Char) (count : Nat) (row lastRow : List Nat) :
    (first : List Char) → List Nat
  | [] => row
  | a :: first =>
    let next := (count + 1) :: alignRow a before none (count + 1) second row lastRow
    alignRows second (some a) (count + 1) next row first

/-- The optimal string alignment distance of two words. -/
def alignmentDistance (a b : String) : Nat :=
  (alignRows b.toList none 0 (List.range (b.toList.length + 1)) [] a.toList).getLastD 0

end ResumableQuery.Text
