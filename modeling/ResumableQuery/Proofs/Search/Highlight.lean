import ResumableQuery.Proofs.Search.Segments
import ResumableQuery.Search.Highlight

/-!
# Markers in a text

Highlighting keeps all characters of a text in their order and puts markers around some runs of them
(`Marks`).  It does so segment by segment, and the segments are the whole text.
-/

namespace ResumableQuery.Search

/-- The second list is the first one with markers around some of its parts. -/
inductive Marks : List Char → List Char → Prop
  | nil : Marks [] []
  | keep (c : Char) {text shown : List Char} : Marks text shown → Marks (c :: text) (c :: shown)
  | mark (part : List Char) {text shown : List Char} :
      Marks text shown → Marks (part ++ text) (marked part ++ shown)

namespace Marks

variable {text shown text' shown' : List Char}

theorem refl (text : List Char) : Marks text text := by
  induction text with
  | nil => exact .nil
  | cons c text ih => exact .keep c ih

theorem append (h : Marks text shown) (h' : Marks text' shown') :
    Marks (text ++ text') (shown ++ shown') := by
  induction h with
  | nil => exact h'
  | keep c _ ih => exact .keep c ih
  | mark part _ ih =>
    rw [List.append_assoc, List.append_assoc]
    exact .mark part ih

/-- Markers at the front of a text. -/
theorem marked_append (part rest : List Char) : Marks (part ++ rest) (marked part ++ rest) :=
  .mark part (refl rest)

theorem flatMap {f : List Char → List Char} (h : ∀ part, Marks part (f part))
    (parts : List (List Char)) : Marks parts.flatten (parts.flatMap f) := by
  induction parts with
  | nil => exact .nil
  | cons part parts ih =>
    rw [List.flatten_cons, List.flatMap_cons]
    exact (h part).append ih

end Marks

theorem marks_highlight (word : List Char) (m : Match) : Marks word (m.highlight word) := by
  cases m with
  | token => simpa [Match.highlight] using Marks.marked_append word []
  | unfinished typed =>
    simpa [Match.highlight] using
      Marks.marked_append (word.take typed.toList.length) (word.drop typed.toList.length)
  | nothing => exact .refl word

variable {wanted : List String} {unfinished : Option String}

theorem marks_highlightSegment (segment : List Char) :
    Marks segment (highlightSegment wanted unfinished segment) := by
  unfold highlightSegment
  split
  · exact marks_highlight segment _
  · exact .refl segment

/-- A text with what was matched highlighted is the text, markers aside. -/
theorem marks_highlightSegments (text : List Char) :
    Marks text ((segments text).flatMap (highlightSegment wanted unfinished)) := by
  simpa only [flatten_segments] using Marks.flatMap marks_highlightSegment (segments text)

end ResumableQuery.Search
