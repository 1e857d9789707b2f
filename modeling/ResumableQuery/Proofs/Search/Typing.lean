import Mathlib.Algebra.Order.BigOperators.Group.List
import ResumableQuery.Proofs.Search.Segments
import ResumableQuery.Proofs.Search.Words
import ResumableQuery.Proofs.Text.Lowercase

/-!
# Typing on

A phrase that ends in a word is looked for by its complete words and the start of its last one.  One
more character makes the start longer, so that the texts that have it are among those that had the
shorter one, unless the lower case of the longer start does not begin with that of the shorter one.
That is so where the shorter one ends in a capital sigma, which is taken for the end of the word
(`typing_narrows_iff`).
-/

namespace ResumableQuery.Search

theorem beginsWith_iff {text start : String} :
    beginsWith text start = true ↔ start.toList <+: text.toList :=
  List.isPrefixOf_iff_prefix

/-! ### Tokens of words -/

theorem toList_tokenText (word : List Char) :
    (tokenText word).toList = Text.lowerFrom [] word := by
  rw [tokenText, Text.lowercase, String.toList_ofList, String.toList_ofList]

/-- The token of a word is that of a start of it only if the start is the whole word. -/
theorem tokenText_append_eq_iff {start rest : List Char} :
    tokenText (start ++ rest) = tokenText start ↔ rest = [] := by
  constructor
  · intro heq
    have length := congrArg (fun token => token.toList.length) heq
    simp only [toList_tokenText, Text.length_lowerFrom, List.length_append,
      List.countP_append] at length
    exact List.length_eq_zero_iff.1 (by omega)
  · rintro rfl
    rw [List.append_nil]

/-- The token of a word begins with that of a start of the word, unless the start ends in a sigma
and a letter follows. -/
theorem beginsWith_tokenText_iff (start rest : List Char) :
    beginsWith (tokenText (start ++ rest)) (tokenText start) = true ↔
      ¬(Text.endsInSigma start = true ∧ Text.reachesCased rest = true) := by
  rw [beginsWith_iff, toList_tokenText, toList_tokenText, Text.lowerFrom_prefix_iff]

/-- A word can be continued by digits so that its token begins as before and is none of finitely
many texts. -/
theorem exists_tokenText_notMem (word : List Char) (texts : List String) :
    ∃ digits : List Char, (∀ c ∈ digits, Text.isAlphanumeric c = true) ∧
      beginsWith (tokenText (word ++ digits)) (tokenText word) = true ∧
      tokenText (word ++ digits) ∉ texts := by
  let lengths := texts.map fun t => t.toList.length
  refine ⟨List.replicate (lengths.sum + 1) '0', fun c hc => ?_, ?_, fun hmem => ?_⟩
  · obtain rfl := List.eq_of_mem_replicate hc
    decide +kernel
  · rw [beginsWith_tokenText_iff, List.replicate_succ,
      Text.reachesCased_cons_of_not_ignorable (by decide +kernel)]
    exact fun ⟨_, hcased⟩ => absurd hcased (by decide +kernel)
  · have le_sum : (tokenText (word ++ List.replicate (lengths.sum + 1) '0')).toList.length ≤
        lengths.sum := List.le_sum_of_mem (List.mem_map_of_mem hmem)
    rw [toList_tokenText, Text.length_lowerFrom, List.length_append, List.length_replicate] at le_sum
    omega

/-! ### Words that are held -/

/-- Tokens that hold a word hold its starts. -/
theorem HoldsWords.shorten {terms tokens : List String} {typed shorter : String}
    (h : HoldsWords terms (some typed) tokens) (hbegins : beginsWith typed shorter = true) :
    HoldsWords terms (some shorter) tokens := by
  refine ⟨h.1, fun start hstart => ?_⟩
  obtain rfl := Option.some.inj hstart
  obtain ⟨word, hword, hnot, htyped⟩ := h.2 typed rfl
  exact ⟨word, hword, hnot,
    beginsWith_iff.2 ((beginsWith_iff.1 hbegins).trans (beginsWith_iff.1 htyped))⟩

/-- If every text that holds a word holds a start of it too, the token of the word begins with that
of the start. -/
theorem beginsWith_of_holdsWords {front start rest : List Char}
    (hfront : ∀ c ∈ front.getLast?, Text.isAlphanumeric c = false) (hne : start ≠ [])
    (hword : ∀ c ∈ start ++ rest, Text.isAlphanumeric c = true)
    (narrows : ∀ text, HoldsWords (tokenTexts (String.ofList front))
        (some (tokenText (start ++ rest))) (tokenTexts text) →
      HoldsWords (tokenTexts (String.ofList front)) (some (tokenText start)) (tokenTexts text)) :
    beginsWith (tokenText (start ++ rest)) (tokenText start) = true := by
  -- the text has a single token that is not among the terms
  obtain ⟨digits, hdigits, hbegins, hnew⟩ :=
    exists_tokenText_notMem (start ++ rest) (tokenTexts (String.ofList front))
  have htexts : tokenTexts (String.ofList (front ++ (start ++ rest ++ digits))) =
      tokenTexts (String.ofList front) ++ [tokenText (start ++ rest ++ digits)] :=
    tokenTexts_append_word hfront (by simp [hne])
      fun c hc => (List.mem_append.1 hc).elim (hword c) (hdigits c)
  have held : HoldsWords (tokenTexts (String.ofList front)) (some (tokenText (start ++ rest)))
      (tokenTexts (String.ofList (front ++ (start ++ rest ++ digits)))) := by
    rw [htexts]
    refine ⟨fun t ht => List.mem_append_left _ ht, fun typed htyped => ?_⟩
    obtain rfl := Option.some.inj htyped
    exact ⟨_, List.mem_append_right _ (List.mem_singleton_self _), hnew, hbegins⟩
  obtain ⟨token, htoken, hnot, hstart⟩ := (narrows _ held).2 _ rfl
  rw [htexts] at htoken
  obtain rfl := List.mem_singleton.1 ((List.mem_append.1 htoken).resolve_left hnot)
  -- both starts are starts of its text, and the shorter one has fewer characters
  refine beginsWith_iff.2 (List.prefix_of_prefix_length_le (beginsWith_iff.1 hstart)
    (beginsWith_iff.1 hbegins) ?_)
  rw [toList_tokenText, toList_tokenText, Text.lowerFrom_append, List.length_append,
    ← Text.lowerIn_nil_right, Text.length_lowerIn [] start [] rest]
  omega

/-! ### Phrases -/

/-- A phrase that ends in two characters of a word narrows what the phrase without the last
character accepts, for every text, exactly if the last word of the shorter one does not end in a
sigma that a letter follows. -/
theorem typing_narrows_iff (start : List Char) {a b : Char}
    (ha : Text.isAlphanumeric a = true) (hb : Text.isAlphanumeric b = true) :
    let shorter := phraseTokens (String.ofList (start ++ [a]))
    let longer := phraseTokens (String.ofList (start ++ [a, b]))
    (∀ text highlight, (searchAll text longer.complete longer.unfinished highlight).isSome →
        (searchAll text shorter.complete shorter.unfinished highlight).isSome) ↔
      ¬(Text.endsInSigma (lastWord (start ++ [a])) = true ∧ Text.reachesCased [b] = true) := by
  intro shorter longer
  let front := beforeLastWord (start ++ [a])
  let word := lastWord (start ++ [a])
  have hfront : ∀ c ∈ front.getLast?, Text.isAlphanumeric c = false :=
    fun c hc => not_isAlphanumeric_of_beforeLastWord hc
  have hword : ∀ c ∈ word ++ [b], Text.isAlphanumeric c = true := by
    simp only [List.forall_mem_append, List.forall_mem_singleton]
    exact ⟨fun c hc => isAlphanumeric_of_mem_lastWord hc, hb⟩
  have hne : word ≠ [] := by
    simp only [word, lastWord_append_singleton ha]
    simp
  have hshorter : shorter = ⟨tokenTexts (String.ofList front), some (tokenText word)⟩ := by
    rw [← phraseTokens_append_word hfront hne (fun c hc => hword c (List.mem_append_left _ hc)),
      beforeLastWord_append_lastWord]
  have hlonger : longer = ⟨tokenTexts (String.ofList front), some (tokenText (word ++ [b]))⟩ := by
    rw [← phraseTokens_append_word hfront (by simp) hword, ← List.append_assoc,
      beforeLastWord_append_lastWord, List.append_assoc]
    rfl
  rw [hshorter, hlonger, ← beginsWith_tokenText_iff]
  simp only [isSome_searchAll]
  constructor
  · exact fun narrows => beginsWith_of_holdsWords hfront hne hword fun text => narrows text false
  · exact fun hbegins text _ held => held.shorten hbegins

theorem typing_narrows_iff_sample :
    Text.isAlphanumeric 'o' = true ∧ Text.isAlphanumeric 'x' = true ∧
      let shorter := phraseTokens "quick fo"
      let longer := phraseTokens "quick fox"
      ∀ text highlight, (searchAll text longer.complete longer.unfinished highlight).isSome →
        (searchAll text shorter.complete shorter.unfinished highlight).isSome := by
  have ho : Text.isAlphanumeric 'o' = true := by decide +kernel
  have hx : Text.isAlphanumeric 'x' = true := by decide +kernel
  have no_sigma : ¬(Text.endsInSigma (lastWord ("quick f".toList ++ ['o'])) = true ∧
      Text.reachesCased ['x'] = true) := by decide +kernel
  exact ⟨ho, hx, (typing_narrows_iff "quick f".toList ho hx).2 no_sigma⟩

/-- The capital sigma of the shorter phrase is read as the last letter of its word, which it is in
no word of the text. -/
theorem not_narrowed_after_sigma :
    Text.isAlphanumeric 'Σ' = true ∧ Text.isAlphanumeric 'Α' = true ∧
      phraseTokens "ΑΣΑ" = ⟨[], some "ασα"⟩ ∧ phraseTokens "ΑΣ" = ⟨[], some "ας"⟩ ∧
      searchAll "ΑΣΑ" [] (some "ασα") false = some "ΑΣΑ" ∧
      searchAll "ΑΣΑ" [] (some "ας") false = none := by
  decide +kernel

end ResumableQuery.Search
