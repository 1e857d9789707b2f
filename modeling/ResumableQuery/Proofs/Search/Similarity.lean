import ResumableQuery.Proofs.Numeric.Binary32
import ResumableQuery.Proofs.Search.Spelling
import ResumableQuery.Proofs.Text.Lowercase

/-!
# How alike a suggestion is

The distance of a suggestion is counted on the word in lower case, and it is divided by the length
of the word as it was typed or of the term, whichever is longer.  A distance is at most the length of
the longer of the two words that it is between, so it can only be too large where the word has more
characters in lower case, which the dotted capital I has.  No suggestion is more than two edits
away.  So this happens for one word alone, the dotted capital I itself, and for terms of one
character that is not in its lower case (`Suggestion.Overshoots`).  All other suggestions have a
similarity from zero to one (`Spelling.similarity_bounded_iff`).
-/

namespace ResumableQuery.Search

namespace Suggestion

variable {g : Suggestion} {word : String}

/-- The distance is more than the lengths allow for: the word is the dotted capital I, one character
that has two in lower case, and the term has at most one character and is neither of these two. -/
def Overshoots (g : Suggestion) (word : String) : Prop :=
  word = "İ" ∧ g.term.toList.length ≤ 1 ∧ g.term ≠ "i" ∧ g.term ≠ "\u0307"

instance : Decidable (g.Overshoots word) := inferInstanceAs (Decidable (_ ∧ _ ∧ _))

theorem alignmentDistance_dotted_iff {term : String} (hshort : term.toList.length ≤ 1) :
    Text.alignmentDistance (Text.lowercase "İ") term = 2 ↔ term ≠ "i" ∧ term ≠ "\u0307" := by
  have pair : "i̇".toList = ['i', '\u0307'] := rfl
  have letter : term.toList = ['i'] ↔ term = "i" := by
    rw [← String.toList_inj]
    rfl
  have dot : term.toList = ['\u0307'] ↔ term = "\u0307" := by
    rw [← String.toList_inj]
    rfl
  rw [Text.lowercase_dotted, Text.alignmentDistance_eq_two_iff pair hshort, ne_eq, ne_eq, letter,
    dot]

/-- It takes two edits to overshoot. -/
theorem Overshoots.distance_eq_two (h : g.Overshoots word)
    (hdistance : g.distance = Text.alignmentDistance (Text.lowercase word) g.term) :
    g.distance = 2 := by
  obtain ⟨rfl, hshort, hother⟩ := h
  exact hdistance.trans ((alignmentDistance_dotted_iff hshort).2 hother)

/-- The length that is overshot is one. -/
theorem Overshoots.max_length (h : g.Overshoots word) :
    max word.toList.length g.term.toList.length = 1 := by
  obtain ⟨rfl, hshort, -⟩ := h
  exact Nat.max_eq_left hshort

/-- A distance of at most two edits is no more than the length of the longer of the typed word and
the term, unless it overshoots. -/
theorem distance_le_iff
    (hdistance : g.distance = Text.alignmentDistance (Text.lowercase word) g.term)
    (hnear : g.distance ≤ 2) :
    g.distance ≤ max word.toList.length g.term.toList.length ↔ ¬g.Overshoots word := by
  constructor
  · intro hle hover
    rw [hover.distance_eq_two hdistance, hover.max_length] at hle
    cases Nat.le_of_succ_le_succ hle
  · intro hnot
    by_contra hgt
    have hmax := Text.alignmentDistance_le_max (Text.lowercase word) g.term
    -- the term and the typed word are of one character each, and the word has two in lower case
    have hshort : g.term.toList.length ≤ 1 := by omega
    obtain rfl : word = "İ" := Text.eq_dotted_of_length_lt (by omega) (by omega)
    have single : "İ".toList.length = 1 := rfl
    exact hnot ⟨rfl, hshort, (alignmentDistance_dotted_iff hshort).1 (by omega)⟩

end Suggestion

namespace Spelling

variable {s : Spelling} {d : Directory} {found : List Suggestion} {g : Suggestion}

/-- Every suggestion carries the distance of the word in lower case to its term, at most two. -/
theorem distance_of_mem_suggestions (hfound : s.suggestions d = .ok found) (hg : g ∈ found) :
    g.distance = Text.alignmentDistance (Text.lowercase s.word) g.term ∧ g.distance ≤ 2 := by
  obtain ⟨reader, hreader, -⟩ := Except.exists_of_bind_eq_ok (by rwa [suggestions] at hfound)
  rw [suggestions_eq hreader] at hfound
  obtain ⟨fields, -, hfound⟩ := Except.exists_of_bind_eq_ok hfound
  obtain ⟨parts, hparts, hfound⟩ := Except.exists_of_bind_eq_ok hfound
  cases hfound
  obtain ⟨part, hpart, hg⟩ := List.mem_flatten.1 (List.mem_mergeSort.1 hg)
  obtain ⟨field, -, hfield⟩ := Except.exists_of_mem_mapM hparts hpart
  rw [fieldSuggestions] at hfield
  obtain ⟨terms, -, hfield⟩ := Except.exists_of_bind_eq_ok hfield
  cases hfield
  obtain ⟨⟨term, frequency⟩, -, hsuggestion⟩ := List.mem_filterMap.1 hg
  exact (suggestion?_eq_some_iff.1 hsuggestion).2.2

/-- A distance that the length allows for gives a similarity from zero to one. -/
theorem similarity_of_distance_le
    (h : g.distance ≤ max s.word.toList.length g.term.toList.length) :
    0 ≤ (s.similarity g).value ∧ (s.similarity g).value ≤ 1 :=
  Binary32.value_one_sub_div (h.trans (Nat.le_max_left _ 1))
    (Nat.lt_of_lt_of_le Nat.one_pos (Nat.le_max_right _ 1))

/-- Two edits on a length of one give a similarity of minus one. -/
theorem similarity_of_overshoots (h : g.Overshoots s.word) (hdistance : g.distance = 2) :
    (s.similarity g).value = -1 := by
  rw [similarity, h.max_length, hdistance]
  exact Binary32.value_one_sub_two

/-- The distance of a suggestion is at most the length of the longer of the word in lower case and
the term.  It is at most that of the longer of the typed word and the term, and the similarity lies
between zero and one, unless the distance overshoots; then the similarity is minus one. -/
theorem similarity_bounded_iff (hfound : s.suggestions d = .ok found) (hg : g ∈ found) :
    let lower := Text.lowercase s.word
    let similarity := (s.similarity g).value
    g.distance ≤ max lower.toList.length g.term.toList.length ∧
      (g.distance ≤ max s.word.toList.length g.term.toList.length ↔ ¬g.Overshoots s.word) ∧
      (0 ≤ similarity ∧ similarity ≤ 1 ↔ ¬g.Overshoots s.word) ∧
      (g.Overshoots s.word → similarity = -1) := by
  intro lower similarity
  obtain ⟨hdistance, hnear⟩ := distance_of_mem_suggestions hfound hg
  have fits := Suggestion.distance_le_iff hdistance hnear
  have negative (h : g.Overshoots s.word) : similarity = -1 :=
    similarity_of_overshoots h (h.distance_eq_two hdistance)
  refine ⟨?_, fits, ⟨fun bounds hover => ?_, fun hnot => ?_⟩, negative⟩
  · rw [hdistance]
    exact Text.alignmentDistance_le_max lower g.term
  · rw [negative hover] at bounds
    exact absurd bounds.1 (by decide)
  · exact similarity_of_distance_le (fits.2 hnot)

/-- A directory with one note, which has two letters as its title. -/
def letterDirectory : Directory :=
  Index.boxedIndex.put (some (Index.boxedNote 1 "in" "I x"))
    (some ([.text "in"], Index.boxedIndex.values (Index.boxedNote 1 "in" "I x"))) []

/-- The search for the dotted capital I. -/
def dottedSearch : Spelling :=
  ⟨Index.boxedIndex, "İ", [], [.text "in"], .forward⟩

theorem written_letterDirectory : letterDirectory.Written := Index.written_put .empty

/-- Both letters are suggested for the dotted capital I. -/
theorem exists_letters : ∃ found, dottedSearch.suggestions letterDirectory = .ok found ∧
    ⟨"title", "i", 1, 1⟩ ∈ found ∧ ⟨"title", "x", 2, 1⟩ ∈ found := by
  have added : (letterDirectory.partition ("notes", [.text "in"])).documents ≠ [] := by
    decide +kernel
  obtain ⟨found, hfound, -, mem⟩ := exists_suggestions (s := dottedSearch)
    (written_letterDirectory.indexed ("notes", [.text "in"])) added rfl
  exact ⟨found, hfound, (mem _).2 ⟨.inl rfl, Suggestion.isFor_iff.2 (by decide +kernel)⟩,
    (mem _).2 ⟨.inl rfl, Suggestion.isFor_iff.2 (by decide +kernel)⟩⟩

/-- What a term has in common with the dotted capital I keeps the similarity from being negative. -/
theorem similarity_bounded_iff_sample :
    ∃ found, dottedSearch.suggestions letterDirectory = .ok found ∧ ⟨"title", "i", 1, 1⟩ ∈ found ∧
      0 ≤ (dottedSearch.similarity ⟨"title", "i", 1, 1⟩).value ∧
      (dottedSearch.similarity ⟨"title", "i", 1, 1⟩).value ≤ 1 := by
  obtain ⟨found, hfound, hmem, -⟩ := exists_letters
  obtain ⟨-, -, hiff, -⟩ := similarity_bounded_iff hfound hmem
  exact ⟨found, hfound, hmem, hiff.2 (by decide)⟩

/-- Two edits make another letter of the dotted capital I, which is a word of one character. -/
theorem similarity_below_zero :
    letterDirectory.Written ∧
      new Index.boxedIndex "İ" [] [.text "in"] .forward = .ok dottedSearch ∧
      ∃ found, dottedSearch.suggestions letterDirectory = .ok found ∧
        ⟨"title", "x", 2, 1⟩ ∈ found ∧
        max dottedSearch.word.toList.length "x".toList.length < 2 ∧
        (dottedSearch.similarity ⟨"title", "x", 2, 1⟩).value = -1 ∧
        (dottedSearch.entry ⟨"title", "x", 2, 1⟩).value = [.float ⟨0xbff0000000000000⟩] := by
  obtain ⟨found, hfound, -, hmem⟩ := exists_letters
  exact ⟨written_letterDirectory, rfl, found, hfound, hmem, by decide,
    similarity_of_overshoots (by decide) rfl, by decide +kernel⟩

end Spelling

end ResumableQuery.Search
