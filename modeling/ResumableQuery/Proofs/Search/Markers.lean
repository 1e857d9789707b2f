import Mathlib.Data.List.Forall2
import ResumableQuery.Proofs.Search.Sweep
import ResumableQuery.Proofs.Search.Typing

/-!
# What highlighting inserts

A highlighted text is the text with markers around some of its pieces, which lie side by side.  The
pieces between markers are beginnings of words, no two of the same word, so all that highlighting
does is to insert markers (`searchAll_inserts_markers`).

The beginning that is shown for an unfinished word has as many characters as the lower case of what
was typed, and these are more than were typed if some of them is a dotted capital I
(`marks_typed_iff`).
-/

namespace ResumableQuery.Search

/-! ### Pieces -/

/-- A piece of a text that is shown as it is or between markers. -/
inductive Piece where
  | plain (cs : List Char)
  | marked (cs : List Char)
  deriving DecidableEq, Repr

namespace Piece

/-- The piece without markers. -/
def text : Piece → List Char
  | plain cs => cs
  | marked cs => cs

/-- The piece as it is shown. -/
def shown : Piece → List Char
  | plain cs => cs
  | marked cs => Search.marked cs

end Piece

/-- The byte ranges of the pieces that are shown between markers, if the first piece begins at a
byte offset. -/
def markedRanges (offset : Nat) : List Piece → List (Nat × Nat)
  | [] => []
  | .plain cs :: rest => markedRanges (offset + byteLength cs) rest
  | .marked cs :: rest =>
    (offset, offset + byteLength cs) :: markedRanges (offset + byteLength cs) rest

theorem markedRanges_append (offset : Nat) (pieces more : List Piece) :
    markedRanges offset (pieces ++ more) = markedRanges offset pieces ++
      markedRanges (offset + byteLength (pieces.flatMap Piece.text)) more := by
  induction pieces generalizing offset with
  | nil => rfl
  | cons piece pieces ih =>
    cases piece <;>
      simp only [List.cons_append, markedRanges, ih, List.flatMap_cons, Piece.text,
        byteLength_append, Nat.add_assoc]

/-- The range is a beginning of the word of a token, and not empty. -/
def OpensToken (range : Nat × Nat) (t : Token) : Prop :=
  range.1 = t.first ∧ range.1 < range.2 ∧ range.2 ≤ t.stop

/-! ### Pieces of a highlighted text -/

/-- The pieces that a word is shown in. -/
def Match.pieces (word : List Char) : Match → List Piece
  | .token => [.marked word]
  | .unfinished typed =>
    [.marked (word.take typed.toList.length), .plain (word.drop typed.toList.length)]
  | .nothing => [.plain word]

variable (wanted : List String) (unfinished : Option String)

/-- The pieces that a segment is shown in. -/
def segmentPieces (segment : List Char) : List Piece :=
  if isWord segment then (matchWord wanted unfinished segment).pieces segment else [.plain segment]

theorem flatMap_text_segmentPieces (segment : List Char) :
    (segmentPieces wanted unfinished segment).flatMap Piece.text = segment := by
  unfold segmentPieces
  split
  · cases matchWord wanted unfinished segment <;> simp [Match.pieces, Piece.text]
  · simp [Piece.text]

theorem flatMap_shown_segmentPieces (segment : List Char) :
    (segmentPieces wanted unfinished segment).flatMap Piece.shown =
      highlightSegment wanted unfinished segment := by
  unfold segmentPieces highlightSegment
  split
  · cases matchWord wanted unfinished segment <;>
      simp [Match.pieces, Match.highlight, Piece.shown]
  · simp [Piece.shown]

variable {unfinished}

/-- The only markers of a segment open its token. -/
theorem exists_opened_segment (typed : ∀ start ∈ unfinished, start ≠ "") (offset : Nat)
    (segment : List Char) :
    ∃ ts, List.Sublist ts (tokensFrom offset [segment]) ∧
      List.Forall₂ OpensToken (markedRanges offset (segmentPieces wanted unfinished segment))
        ts := by
  cases hword : isWord segment with
  | false => exact ⟨[], List.nil_sublist _, by simp [segmentPieces, hword, markedRanges]⟩
  | true =>
    have hne : segment ≠ [] := by
      rintro rfl
      cases hword
    rw [tokensFrom, if_pos hword, tokensFrom, segmentPieces, if_pos hword]
    cases hmatch : matchWord wanted unfinished segment with
    | token =>
      refine ⟨_, List.Sublist.refl _, .cons ⟨rfl, ?_, Nat.le_refl _⟩ .nil⟩
      have := byteLength_pos hne
      show offset < offset + byteLength segment
      omega
    | unfinished start =>
      have hstart := typed start (matchWord_eq_unfinished_iff.1 hmatch).1
      have split := congrArg byteLength (List.take_append_drop start.toList.length segment)
      rw [byteLength_append] at split
      refine ⟨_, List.Sublist.refl _, .cons ⟨rfl, ?_, ?_⟩ .nil⟩
      · have : 0 < byteLength (segment.take start.toList.length) :=
          byteLength_pos (by simp [hstart, hne])
        show offset < offset + byteLength (segment.take start.toList.length)
        omega
      · show offset + byteLength (segment.take start.toList.length) ≤ offset + byteLength segment
        omega
    | nothing => exact ⟨[], List.nil_sublist _, .nil⟩

/-- The markers of consecutive segments open tokens of theirs, each another one. -/
theorem exists_opened (typed : ∀ start ∈ unfinished, start ≠ "") (offset : Nat)
    (parts : List (List Char)) :
    ∃ ts, List.Sublist ts (tokensFrom offset parts) ∧
      List.Forall₂ OpensToken
        (markedRanges offset (parts.flatMap (segmentPieces wanted unfinished))) ts := by
  induction parts generalizing offset with
  | nil => exact ⟨[], List.nil_sublist _, .nil⟩
  | cons part parts ih =>
    obtain ⟨ts, hsub, hopen⟩ := exists_opened_segment wanted typed offset part
    obtain ⟨later, hlater, hopens⟩ := ih (offset + byteLength part)
    refine ⟨ts ++ later, ?_, ?_⟩
    · have tokens := tokensFrom_append offset [part] parts
      rw [List.singleton_append, List.flatten_singleton] at tokens
      rw [tokens]
      exact hsub.append hlater
    · rw [List.flatMap_cons, markedRanges_append, flatMap_text_segmentPieces]
      exact List.rel_append hopen hopens

/-! ### Highlighting -/

/-- With and without highlighting the same texts are accepted, and one pass over the text decides it
and makes up what is shown, without ever cutting inside of a character or beyond the text.  Without
highlighting the text is shown as it is.  With it the text is shown in pieces, some of them between
markers, and each of these is a nonempty beginning of a word, at most one of each word. -/
theorem searchAll_inserts_markers (text : String) (wanted : List String)
    (unfinished : Option String) (typed : ∀ start ∈ unfinished, start ≠ "") :
    (∀ highlight, sweep text wanted unfinished highlight =
        .ok (searchAll text wanted unfinished highlight)) ∧
      ((searchAll text wanted unfinished true).isSome ↔
        (searchAll text wanted unfinished false).isSome) ∧
      (∀ shown ∈ searchAll text wanted unfinished false, shown = text) ∧
      ∀ shown ∈ searchAll text wanted unfinished true, ∃ pieces : List Piece,
        shown = String.ofList (pieces.flatMap Piece.shown) ∧
          text = String.ofList (pieces.flatMap Piece.text) ∧
          ∃ ts, List.Sublist ts (tokens text) ∧
            List.Forall₂ OpensToken (markedRanges 0 pieces) ts := by
  refine ⟨sweep_eq text wanted unfinished, ?_, fun shown hshown => ?_, fun shown hshown => ?_⟩
  · rw [isSome_searchAll, isSome_searchAll]
  · rw [searchAll] at hshown
    split at hshown
    · exact (Option.some.inj hshown).symm
    · cases hshown
  · rw [searchAll] at hshown
    split at hshown
    · refine ⟨(segments text.toList).flatMap (segmentPieces wanted unfinished), ?_, ?_,
        exists_opened wanted typed 0 _⟩
      · rw [← Option.some.inj hshown, List.flatMap_assoc]
        simp only [flatMap_shown_segmentPieces]
      · rw [List.flatMap_assoc]
        simp only [flatMap_text_segmentPieces]
        rw [List.flatMap_id', flatten_segments, String.ofList_toList]
    · cases hshown

/-- A token and the beginning of another word between markers. -/
theorem searchAll_inserts_markers_sample :
    (∀ start ∈ some "fo", start ≠ "") ∧
      searchAll "The Quick brown Fox, jumping" ["quick"] (some "fo") true =
        some "The <b>Quick</b> brown <b>Fo</b>x, jumping" ∧
      sweep "The Quick brown Fox, jumping" ["quick"] (some "fo") true =
        .ok (some "The <b>Quick</b> brown <b>Fo</b>x, jumping") := by
  have typed : ∀ start ∈ some "fo", start ≠ "" := by decide
  have highlighted : searchAll "The Quick brown Fox, jumping" ["quick"] (some "fo") true =
      some "The <b>Quick</b> brown <b>Fo</b>x, jumping" := by decide +kernel
  obtain ⟨swept, -⟩ :=
    searchAll_inserts_markers "The Quick brown Fox, jumping" ["quick"] (some "fo") typed
  exact ⟨typed, highlighted, highlighted ▸ swept true⟩

/-! ### Markers around what was typed -/

/-- For a start of a word the markers go around it and as many more characters as it has dotted
capital I's.  So they go around what was typed exactly if it has none of them, or is the whole
word. -/
theorem marks_typed_iff (start rest : List Char) :
    let more := start.countP fun c => c.toNat = Text.dottedCapitalI
    cutHighlight (start ++ rest) (tokenText start) =
        .ok (marked (start ++ rest.take more) ++ rest.drop more) ∧
      (tokenText (start ++ rest.take more) = tokenText start ↔
        rest = [] ∨ ∀ c ∈ start, c.toNat ≠ Text.dottedCapitalI) := by
  intro more
  constructor
  · have count : (tokenText start).toList.length = start.length + more := by
      rw [toList_tokenText, Text.length_lowerFrom]
    rw [cutHighlight_eq, Match.highlight, count, List.take_length_add_append,
      List.drop_length_add_append]
  · have no_more : more = 0 ↔ ∀ c ∈ start, c.toNat ≠ Text.dottedCapitalI := by
      simp [more, List.countP_eq_zero]
    rw [tokenText_append_eq_iff, List.take_eq_nil_iff, no_more, or_comm]

/-- The dotted capital I has two characters in lower case, so a letter that was not typed is shown
between the markers too. -/
theorem marks_beyond_typed :
    phraseTokens "İ" = ⟨[], some "i̇"⟩ ∧ tokenText "İ".toList = "i̇" ∧
      tokenTexts "İstanbul" = ["i̇stanbul"] ∧ beginsWith "i̇stanbul" "i̇" = true ∧
      searchAll "İstanbul" [] (some "i̇") true = some "<b>İs</b>tanbul" ∧
      tokenText "İs".toList = "i̇s" ∧ "i̇s" ≠ "i̇" := by
  decide +kernel

end ResumableQuery.Search
