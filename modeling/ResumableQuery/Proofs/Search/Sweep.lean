import Mathlib.Data.Finset.Card
import ResumableQuery.Proofs.Except
import ResumableQuery.Proofs.Search.Phrases
import ResumableQuery.Proofs.Search.Slices

/-!
# A pass over the tokens of a text

A text can be searched and highlighted in one pass over its tokens (`sweep`).  The pass remembers up
to which byte the text has been shown, and what lies between there and the next match is cut out of
the text when the match is reached, or at the end.  At each token what has been shown and what is
still to be shown make up the highlighted segments before it (`Sweep.Reached`), so the pass comes to
what `searchAll` says, and never cuts inside of a character or beyond the text (`sweep_eq`).
-/

namespace ResumableQuery.Search

/-! ### The pass -/

/-- A word with markers around as many characters as were typed. -/
def cutHighlight (word : List Char) (typed : String) : Except BadRange (List Char) :=
  let count := typed.toList.length
  if count < word.length then do
    let cut := byteLength (word.take count)
    let front ← slice word 0 cut
    let back ← slice word cut (byteLength word)
    .ok (marked front ++ back)
  else .ok (marked word)

/-- What a pass over the tokens of a text has come to. -/
structure Sweep where
  /-- What has been shown. -/
  out : List Char
  /-- How many bytes of the text that was. -/
  upto : Nat
  /-- The wanted tokens that were found. -/
  found : Finset String
  /-- Whether a further word begins with the unfinished one. -/
  started : Bool

namespace Sweep

variable (text : List Char) (wanted : List String) (unfinished : Option String) (highlight : Bool)

/-- The pass before the first token. -/
def start : Sweep := ⟨[], 0, ∅, false⟩

/-- The text shown up to where a token begins. -/
def advance (s : Sweep) (first : Nat) : Except BadRange Sweep :=
  if s.upto < first then do
    let gap ← (if highlight then slice text s.upto first else .ok [])
    .ok { s with out := s.out ++ gap, upto := first }
  else .ok s

/-- The pass behind a token.  A token that begins in what was shown is left out, and one that is not
matched is shown later. -/
def step (s : Sweep) (token : Token) : Except BadRange Sweep :=
  if token.first < s.upto then .ok s
  else do
    let s ← s.advance text highlight token.first
    let word ← slice text token.first token.stop
    if wanted.contains token.text then
      let shown := if highlight then marked word else []
      .ok ⟨s.out ++ shown, token.stop, insert token.text s.found, s.started⟩
    else
      match unfinished.filter (beginsWith token.text) with
      | none => .ok s
      | some typed => do
        let shown ← (if highlight then cutHighlight word typed else .ok [])
        .ok ⟨s.out ++ shown, token.stop, s.found, true⟩

/-- Whether what was searched for is missing. -/
def misses (s : Sweep) : Bool :=
  (unfinished.isSome && !s.started) || s.found.card < wanted.toFinset.card

end Sweep

/-- The text if it satisfies the tokens, with markers if they are asked for, by one pass. -/
def sweep (text : String) (wanted : List String) (unfinished : Option String) (highlight : Bool) :
    Except BadRange (Option String) := do
  let cs := text.toList
  let ts ← readTokens cs none 0 cs
  let s ← ts.foldlM (Sweep.step cs wanted unfinished highlight) Sweep.start
  if s.misses wanted unfinished then .ok none
  else if highlight then do
    let rest ← slice cs s.upto (byteLength cs)
    .ok (some (String.ofList (s.out ++ rest)))
  else .ok (some text)

/-! ### Cutting words -/

theorem cutHighlight_eq (word : List Char) (typed : String) :
    cutHighlight word typed = .ok ((Match.unfinished typed).highlight word) := by
  unfold cutHighlight Match.highlight
  dsimp only
  split
  · have front := slice_front (word.take typed.toList.length) (word.drop typed.toList.length)
    have back := slice_back (word.take typed.toList.length) (word.drop typed.toList.length)
    rw [List.take_append_drop] at front back
    rw [front, back]
    rfl
  · rename_i h
    rw [List.take_of_length_le (by omega), List.drop_of_length_le (by omega), List.append_nil]

/-- What can be cut out can be shown or left out. -/
theorem exists_shown {cut : Except BadRange (List Char)} {part : List Char} (h : cut = .ok part)
    (highlight : Bool) : ∃ shown, (if highlight then cut else .ok []) = .ok shown ∧
      (highlight = true → shown = part) := by
  cases highlight with
  | false => exact ⟨[], rfl, nofun⟩
  | true => exact ⟨part, h, fun _ => rfl⟩

/-! ### What a pass has come to -/

variable {text : List Char} {wanted : List String} {unfinished : Option String} {highlight : Bool}

/-- The words among segments. -/
def wordsOf (parts : List (List Char)) : List (List Char) := parts.filter isWord

namespace Sweep

/-- The state of a pass over the words of the segments `parts`: what is not shown of them is a rest
of their text, which would make up the highlighted segments if it were shown as it is. -/
structure Reached (wanted : List String) (unfinished : Option String) (highlight : Bool)
    (parts : List (List Char)) (s : Sweep) : Prop where
  shown : ∃ front pending, parts.flatten = front ++ pending ∧ byteLength front = s.upto ∧
    (highlight = true →
      s.out ++ pending = parts.flatMap (highlightSegment wanted unfinished))
  found : ∀ t, t ∈ s.found ↔ t ∈ wanted ∧ t ∈ (wordsOf parts).map tokenText
  started : s.started = true ↔ ∃ typed, unfinished = some typed ∧
    ∃ word ∈ wordsOf parts, matchWord wanted unfinished word = .unfinished typed

theorem reached_start : Reached wanted unfinished highlight [] start where
  shown := ⟨[], [], rfl, rfl, fun _ => rfl⟩
  found t := by simp [start, wordsOf]
  started := by simp [start, wordsOf]

variable {parts : List (List Char)} {s : Sweep}

/-- Between words nothing changes. -/
theorem Reached.append_blank (h : Reached wanted unfinished highlight parts s) {blank : List Char}
    (hblank : isWord blank = false) :
    Reached wanted unfinished highlight (parts ++ [blank]) s := by
  obtain ⟨⟨front, pending, hsplit, hupto, hout⟩, hfound, hstarted⟩ := h
  have words : wordsOf (parts ++ [blank]) = wordsOf parts := by simp [wordsOf, hblank]
  refine ⟨⟨front, pending ++ blank, ?_, hupto, fun hlight => ?_⟩, ?_, ?_⟩
  · rw [List.flatten_append, hsplit, List.flatten_singleton, List.append_assoc]
  · rw [← List.append_assoc, hout hlight, List.flatMap_append, List.flatMap_singleton,
      highlightSegment, hblank]
    rfl
  · rw [words]
    exact hfound
  · rw [words]
    exact hstarted

theorem Reached.upto_le (h : Reached wanted unfinished highlight parts s) :
    s.upto ≤ byteLength parts.flatten := by
  obtain ⟨front, pending, hsplit, hupto, -⟩ := h.shown
  rw [hsplit, byteLength_append, hupto]
  exact Nat.le_add_right _ _

/-- Up to where a token begins everything can be shown. -/
theorem Reached.exists_advance (h : Reached wanted unfinished highlight parts s)
    (rest : List Char) :
    ∃ s', s.advance (parts.flatten ++ rest) highlight (byteLength parts.flatten) = .ok s' ∧
      Reached wanted unfinished highlight parts s' ∧ s'.upto = byteLength parts.flatten ∧
      (highlight = true → s'.out = parts.flatMap (highlightSegment wanted unfinished)) := by
  obtain ⟨⟨front, pending, hsplit, hupto, hout⟩, hfound, hstarted⟩ := h
  unfold advance
  split
  · have cut := slice_append front pending rest
    rw [← hsplit, hupto] at cut
    obtain ⟨gap, hgap, hshown⟩ := exists_shown cut highlight
    have all_shown (hlight : highlight = true) :
        s.out ++ gap = parts.flatMap (highlightSegment wanted unfinished) := by
      rw [hshown hlight, hout hlight]
    rw [hgap]
    exact ⟨_, rfl, ⟨⟨parts.flatten, [], (List.append_nil _).symm, rfl, fun hlight => by
      rw [List.append_nil, all_shown hlight]⟩, hfound, hstarted⟩, rfl, all_shown⟩
  · have length : byteLength parts.flatten = s.upto + byteLength pending := by
      rw [hsplit, byteLength_append, hupto]
    obtain rfl : pending = [] := byteLength_eq_zero_iff.1 (by omega)
    refine ⟨s, rfl, ⟨⟨front, [], hsplit, hupto, hout⟩, hfound, hstarted⟩, by rw [length]; rfl,
      fun hlight => ?_⟩
    rw [← hout hlight, List.append_nil]

theorem Reached.append_word (h : Reached wanted unfinished highlight parts s) {word : List Char}
    (hword : isWord word = true) {s' : Sweep}
    (shown : ∃ front pending, (parts ++ [word]).flatten = front ++ pending ∧
      byteLength front = s'.upto ∧ (highlight = true → s'.out ++ pending =
        parts.flatMap (highlightSegment wanted unfinished) ++
          (matchWord wanted unfinished word).highlight word))
    (found : ∀ t, t ∈ s'.found ↔ t ∈ s.found ∨ t ∈ wanted ∧ t = tokenText word)
    (started : s'.started = true ↔ s.started = true ∨
      ∃ typed, unfinished = some typed ∧ matchWord wanted unfinished word = .unfinished typed) :
    Reached wanted unfinished highlight (parts ++ [word]) s' := by
  have words : wordsOf (parts ++ [word]) = wordsOf parts ++ [word] := by simp [wordsOf, hword]
  obtain ⟨-, hfound, hstarted⟩ := h
  refine ⟨?_, fun t => ?_, ?_⟩
  · rwa [List.flatMap_append, List.flatMap_singleton, highlightSegment, if_pos hword]
  · rw [found, hfound, words, List.map_append, List.mem_append, List.map_singleton,
      List.mem_singleton, and_or_left]
  · rw [started, hstarted, words]
    simp only [List.mem_append, List.mem_singleton, or_and_right, exists_or, exists_eq_left,
      and_or_left]

theorem matchWord_of_mem {word : List Char} (h : tokenText word ∈ wanted) :
    matchWord wanted unfinished word = .token :=
  if_pos (List.contains_iff_mem.2 h)

theorem matchWord_of_notMem {word : List Char} (h : tokenText word ∉ wanted) :
    matchWord wanted unfinished word =
      (unfinished.filter (beginsWith (tokenText word))).elim .nothing .unfinished := by
  unfold matchWord
  dsimp only
  rw [if_neg (mt List.contains_iff_mem.1 h)]
  cases unfinished with
  | none => rfl
  | some typed =>
    rw [Option.filter_some]
    dsimp only
    split <;> rfl

/-- Behind a word the pass has come to it. -/
theorem Reached.step_word (h : Reached wanted unfinished highlight parts s) {word : List Char}
    (hword : isWord word = true) (rest : List Char) :
    ∃ s', step (parts.flatten ++ word ++ rest) wanted unfinished highlight s
        ⟨tokenText word, byteLength parts.flatten, byteLength (parts.flatten ++ word)⟩ = .ok s' ∧
      Reached wanted unfinished highlight (parts ++ [word]) s' := by
  obtain ⟨before, hadvance, hbefore, hupto, hout⟩ := h.exists_advance (word ++ rest)
  rw [← List.append_assoc] at hadvance
  have whole : (parts ++ [word]).flatten = parts.flatten ++ word := by
    rw [List.flatten_append, List.flatten_singleton]
  have all_shown : (parts ++ [word]).flatten = parts.flatten ++ word ++ [] := by
    rw [whole, List.append_nil]
  unfold step
  rw [if_neg (Nat.not_lt.2 h.upto_le), hadvance, Except.ok_bind, slice_append, Except.ok_bind]
  by_cases hmem : tokenText word ∈ wanted
  · -- the word is shown between markers
    rw [if_pos (List.contains_iff_mem.2 hmem)]
    refine ⟨_, rfl, hbefore.append_word hword ⟨_, [], all_shown, rfl, fun hlight => ?_⟩
      (fun t => ?_) ?_⟩
    · rw [matchWord_of_mem hmem, if_pos hlight, hout hlight, List.append_nil]
      rfl
    · rw [Finset.mem_insert, or_comm]
      exact or_congr_right ⟨fun heq => ⟨heq ▸ hmem, heq⟩, And.right⟩
    · simp [matchWord_of_mem hmem]
  · have hmatch : matchWord wanted unfinished word = _ := matchWord_of_notMem hmem
    have found (t : String) :
        t ∈ before.found ↔ t ∈ before.found ∨ t ∈ wanted ∧ t = tokenText word :=
      ⟨.inl, fun hor => hor.elim id fun hand => absurd (hand.2 ▸ hand.1) hmem⟩
    rw [if_neg (mt List.contains_iff_mem.1 hmem)]
    cases hfilter : unfinished.filter (beginsWith (tokenText word)) with
    | none =>
      -- the word is left for later
      rw [hfilter] at hmatch
      refine ⟨_, rfl, hbefore.append_word hword ⟨_, word, whole, hupto.symm, fun hlight => ?_⟩
        found ?_⟩
      · rw [hmatch, hout hlight]
        rfl
      · simp [hmatch]
    | some typed =>
      -- the start of the word is shown between markers and its rest behind them
      rw [hfilter] at hmatch
      have htyped : unfinished = some typed := (Option.filter_eq_some_iff.1 hfilter).1
      obtain ⟨shown, hcut, hshown⟩ := exists_shown (cutHighlight_eq word typed) highlight
      dsimp only
      rw [hcut]
      refine ⟨_, rfl, hbefore.append_word hword ⟨_, [], all_shown, rfl, fun hlight => ?_⟩ found
        ⟨fun _ => .inr ⟨typed, htyped, hmatch⟩, fun _ => rfl⟩⟩
      rw [hmatch, hout hlight, hshown hlight, List.append_nil]
      rfl

variable (wanted unfinished highlight) in
/-- The pass goes through the tokens of consecutive segments. -/
theorem Reached.exists_foldlM (h : Reached wanted unfinished highlight parts s)
    (more : List (List Char)) :
    ∃ s', (tokensFrom (byteLength parts.flatten) more).foldlM
        (step (parts ++ more).flatten wanted unfinished highlight) s = .ok s' ∧
      Reached wanted unfinished highlight (parts ++ more) s' := by
  induction more generalizing parts s with
  | nil => exact ⟨s, rfl, by rwa [List.append_nil]⟩
  | cons part more ih =>
    have onward : parts ++ part :: more = parts ++ [part] ++ more := by
      rw [List.append_assoc, List.singleton_append]
    have stop : byteLength parts.flatten + byteLength part =
        byteLength (parts ++ [part]).flatten := by
      rw [← byteLength_append, List.flatten_append, List.flatten_singleton]
    rw [tokensFrom, onward]
    cases hpart : isWord part with
    | false =>
      rw [if_neg Bool.false_ne_true, stop]
      exact ih (h.append_blank hpart)
    | true =>
      obtain ⟨s', hstep, hreached⟩ := h.step_word hpart more.flatten
      obtain ⟨last, hrun, hlast⟩ := ih hreached
      rw [byteLength_append] at hstep
      have text : (parts ++ [part] ++ more).flatten = parts.flatten ++ part ++ more.flatten := by
        rw [List.flatten_append, List.flatten_append, List.flatten_singleton]
      refine ⟨last, ?_, hlast⟩
      rw [if_pos rfl, List.foldlM_cons, text, hstep, ← text, stop]
      exact hrun

/-- Behind the last word of a text the pass knows whether it satisfies what was searched for. -/
theorem Reached.misses_eq {text : String}
    (h : Reached wanted unfinished highlight (segments text.toList) s) :
    s.misses wanted unfinished = !satisfies wanted unfinished text := by
  have sub : s.found ⊆ wanted.toFinset := fun t ht => List.mem_toFinset.2 ((h.found t).1 ht).1
  have all_found : decide (s.found.card < wanted.toFinset.card) =
      !wanted.all ((wordsOf (segments text.toList)).map tokenText).contains := by
    simp only [← not_le, decide_not]
    congr 1
    rw [Bool.eq_iff_iff, decide_eq_true_iff, List.all_eq_true]
    constructor
    · intro hle t ht
      have all := Finset.eq_of_subset_of_card_le sub hle
      exact List.contains_iff_mem.2 ((h.found t).1 (all ▸ List.mem_toFinset.2 ht)).2
    · intro hall
      refine Finset.card_le_card fun t ht => (h.found t).2 ?_
      exact ⟨List.mem_toFinset.1 ht, List.contains_iff_mem.1 (hall t (List.mem_toFinset.1 ht))⟩
  have started : (unfinished.isSome && !s.started) = !unfinished.all fun typed =>
      ((wordsOf (segments text.toList)).map (matchWord wanted unfinished)).contains
        (.unfinished typed) := by
    have hstarted := h.started
    cases unfinished with
    | none => rfl
    | some typed =>
      simp only [Option.some.injEq, exists_eq_left'] at hstarted
      rw [Option.isSome_some, Bool.true_and, Option.all_some, Bool.not_inj_iff, Bool.eq_iff_iff,
        hstarted, List.contains_iff_mem, List.mem_map]
  rw [misses, started, all_found, satisfies, Bool.not_and, Bool.or_comm]
  rfl

end Sweep

/-- One pass comes to the text with markers, or to the refusal, and each range that it cuts out is
one of the text. -/
theorem sweep_eq (text : String) (wanted : List String) (unfinished : Option String)
    (highlight : Bool) :
    sweep text wanted unfinished highlight = .ok (searchAll text wanted unfinished highlight) := by
  obtain ⟨s, hrun, hreached⟩ := Sweep.Reached.exists_foldlM wanted unfinished highlight
    Sweep.reached_start (segments text.toList)
  rw [List.nil_append, flatten_segments, List.flatten_nil, byteLength] at hrun
  rw [List.nil_append] at hreached
  unfold sweep searchAll
  dsimp only
  rw [readTokens_eq, Except.ok_bind, hrun, Except.ok_bind, hreached.misses_eq]
  cases satisfies wanted unfinished text with
  | false => rfl
  | true =>
    cases highlight with
    | false => rfl
    | true =>
      obtain ⟨front, pending, hsplit, hupto, hout⟩ := hreached.shown
      rw [flatten_segments] at hsplit
      have cut := slice_back front pending
      rw [← hsplit, hupto] at cut
      rw [← hout rfl, cut]
      rfl

end ResumableQuery.Search
