import ResumableQuery.Proofs.Search.Slices

/-!
# Tokens of a text

The words of a text are its maximal runs of alphanumeric characters (`WordIn`), and its tokens are
its words in order, each in lower case and with its byte range.  Words never touch, so neither do
the ranges of tokens, and every alphanumeric character lies in exactly one of them
(`tokens_maximal_runs`).
-/

namespace ResumableQuery.Search

/-- A word of a text between the characters before it and those after it: alphanumeric characters
with no such character right before or after them. -/
structure WordIn (before word after : List Char) : Prop where
  nonempty : word ≠ []
  alphanumeric : ∀ c ∈ word, Text.isAlphanumeric c = true
  begins : ∀ c ∈ before.getLast?, Text.isAlphanumeric c = false
  ends : ∀ c ∈ after.head?, Text.isAlphanumeric c = false

/-! ### Byte offsets -/

theorem exists_append_of_byteLength_le {front front' back back' : List Char}
    (h : front ++ back = front' ++ back') (hle : byteLength front ≤ byteLength front') :
    ∃ mid, front' = front ++ mid ∧ back = mid ++ back' := by
  obtain ⟨mid, hfront, hback⟩ | ⟨mid, hfront, hback⟩ := List.append_eq_append_iff.1 h
  · exact ⟨mid, hfront, hback⟩
  · rw [hfront, byteLength_append] at hle
    obtain rfl : mid = [] := byteLength_eq_zero_iff.1 (by omega)
    exact ⟨[], by rw [hfront, List.append_nil, List.append_nil], hback.symm⟩

/-! ### Words among segments -/

theorem ne_nil_of_mem_segments {cs segment : List Char} (h : segment ∈ segments cs) :
    segment ≠ [] := by
  rintro rfl
  exact List.nil_notMem_splitBy _ cs h

/-- All characters of a segment are of its kind. -/
theorem isAlphanumeric_of_mem_segments {cs segment : List Char} (h : segment ∈ segments cs)
    {c : Char} (hc : c ∈ segment) : Text.isAlphanumeric c = isWord segment := by
  cases segment with
  | nil => cases hc
  | cons first rest =>
    exact (List.isChain_of_mem_splitBy h).induction
      (fun d => Text.isAlphanumeric d = isWord (first :: rest)) _
      (fun a b hab ha => (beq_iff_eq.1 hab).symm.trans ha) (fun _ => rfl) c hc

/-- Segments next to each other are of different kinds. -/
theorem isWord_ne_of_segments {cs p q : List Char} {front back : List (List Char)}
    (h : segments cs = front ++ p :: q :: back) : isWord p ≠ isWord q := by
  have chain := List.isChain_getLast_head_splitBy
    (fun a b => Text.isAlphanumeric a == Text.isAlphanumeric b) cs
  obtain ⟨hp, hq, hdiffer⟩ := List.isChain_iff_forall_rel_of_append_cons_cons.1 chain h
  have memp : p ∈ segments cs := by simp [h]
  have memq : q ∈ segments cs := by simp [h]
  rw [← isAlphanumeric_of_mem_segments memp (List.getLast_mem hp),
    ← isAlphanumeric_of_mem_segments memq (List.head_mem hq)]
  exact beq_eq_false_iff_ne.1 hdiffer

theorem wordIn_of_segments {cs word : List Char} {front back : List (List Char)}
    (h : segments cs = front ++ word :: back) (hword : isWord word = true) :
    WordIn front.flatten word back.flatten where
  nonempty := by
    rintro rfl
    cases hword
  alphanumeric c hc := by
    have mem : word ∈ segments cs := by simp [h]
    rw [isAlphanumeric_of_mem_segments mem hc, hword]
  begins c hc := by
    obtain rfl | ⟨front, p, rfl⟩ := List.eq_nil_or_concat front
    · cases hc
    · have mem : p ∈ segments cs := by simp [h]
      have differ : isWord p ≠ isWord word := isWord_ne_of_segments (by simpa using h)
      rw [List.concat_eq_append, List.flatten_append, List.flatten_singleton,
        List.getLast?_append_of_ne_nil _ (ne_nil_of_mem_segments mem)] at hc
      rw [isAlphanumeric_of_mem_segments mem (List.mem_of_mem_getLast? hc)]
      exact Bool.eq_false_iff.2 (hword ▸ differ)
  ends c hc := by
    cases back with
    | nil => cases hc
    | cons q back =>
      have mem : q ∈ segments cs := by simp [h]
      have differ : isWord word ≠ isWord q := isWord_ne_of_segments h
      rw [List.flatten_cons, List.head?_append_of_ne_nil _ (ne_nil_of_mem_segments mem)] at hc
      rw [isAlphanumeric_of_mem_segments mem (List.mem_of_mem_head? hc)]
      exact Bool.eq_false_iff.2 (hword ▸ differ.symm)

/-- A word of a text is a segment of it. -/
theorem WordIn.segments_eq {before word after : List Char} (h : WordIn before word after) :
    segments (before ++ word ++ after) = segments before ++ word :: segments after := by
  have differ_before : ∀ a ∈ before.getLast?, ∀ b ∈ (word ++ after).head?,
      Text.isAlphanumeric a ≠ Text.isAlphanumeric b := by
    intro a ha b hb
    rw [List.head?_append_of_ne_nil _ h.nonempty] at hb
    rw [h.begins a ha, h.alphanumeric b (List.mem_of_mem_head? hb)]
    decide
  have differ_after : ∀ a ∈ word.getLast?, ∀ b ∈ after.head?,
      Text.isAlphanumeric a ≠ Text.isAlphanumeric b := by
    intro a ha b hb
    rw [h.alphanumeric a (List.mem_of_mem_getLast? ha), h.ends b hb]
    decide
  rw [List.append_assoc, segments_append differ_before, segments_append differ_after,
    segments_of_alike h.nonempty h.alphanumeric, List.singleton_append]

/-- An alphanumeric character is part of the word that goes on before and behind it. -/
theorem wordIn_around (before after : List Char) {c : Char} (hc : Text.isAlphanumeric c = true) :
    WordIn (beforeLastWord before) (lastWord before ++ c :: after.takeWhile Text.isAlphanumeric)
      (after.dropWhile Text.isAlphanumeric) where
  nonempty := by simp
  alphanumeric d hd := by
    obtain hd | hd := List.mem_append.1 hd
    · exact isAlphanumeric_of_mem_lastWord hd
    · obtain rfl | hd := List.mem_cons.1 hd
      · exact hc
      · exact List.mem_takeWhile_imp hd
  begins d hd := not_isAlphanumeric_of_beforeLastWord hd
  ends d hd := by
    have first := List.head?_dropWhile_not Text.isAlphanumeric after
    rwa [Option.mem_def.1 hd] at first

/-! ### Tokens -/

theorem mem_tokensFrom_iff {offset : Nat} {parts : List (List Char)} {t : Token} :
    t ∈ tokensFrom offset parts ↔ ∃ front word back, parts = front ++ word :: back ∧
      isWord word = true ∧ t = ⟨tokenText word, offset + byteLength front.flatten,
        offset + byteLength front.flatten + byteLength word⟩ := by
  constructor
  · intro ht
    induction parts generalizing offset with
    | nil => cases ht
    | cons part parts ih =>
      have later (hlater : t ∈ tokensFrom (offset + byteLength part) parts) :
          ∃ front word back, part :: parts = front ++ word :: back ∧ isWord word = true ∧
            t = ⟨tokenText word, offset + byteLength front.flatten,
              offset + byteLength front.flatten + byteLength word⟩ := by
        obtain ⟨front, word, back, rfl, hword, rfl⟩ := ih hlater
        refine ⟨part :: front, word, back, rfl, hword, ?_⟩
        rw [List.flatten_cons, byteLength_append, Nat.add_assoc offset]
      rw [tokensFrom] at ht
      split at ht
      · rename_i hpart
        obtain rfl | hlater := List.mem_cons.1 ht
        · exact ⟨[], part, parts, rfl, hpart, rfl⟩
        · exact later hlater
      · exact later ht
  · rintro ⟨front, word, back, rfl, hword, rfl⟩
    rw [tokensFrom_append, tokensFrom, if_pos hword]
    exact List.mem_append_right _ List.mem_cons_self

/-- The tokens of a text are its words. -/
theorem mem_tokens_iff {text : String} {t : Token} :
    t ∈ tokens text ↔ ∃ before word after, text.toList = before ++ word ++ after ∧
      WordIn before word after ∧
        t = ⟨tokenText word, byteLength before, byteLength (before ++ word)⟩ := by
  rw [tokens, mem_tokensFrom_iff]
  constructor
  · rintro ⟨front, word, back, hparts, hword, rfl⟩
    refine ⟨front.flatten, word, back.flatten, ?_, wordIn_of_segments hparts hword, ?_⟩
    · rw [← flatten_segments text.toList, hparts, List.flatten_append, List.flatten_cons,
        List.append_assoc]
    · rw [byteLength_append, Nat.zero_add]
  · rintro ⟨before, word, after, htext, h, rfl⟩
    refine ⟨segments before, word, segments after, ?_, ?_, ?_⟩
    · rw [htext, h.segments_eq]
    · exact isWord_of_alike h.nonempty h.alphanumeric
    · rw [flatten_segments, byteLength_append, Nat.zero_add]

theorem pairwise_tokensFrom (offset : Nat) (parts : List (List Char)) :
    (tokensFrom offset parts).Pairwise fun a b => a.stop ≤ b.first := by
  induction parts generalizing offset with
  | nil => exact .nil
  | cons part parts ih =>
    rw [tokensFrom]
    split
    · refine .cons (fun t ht => ?_) (ih _)
      obtain ⟨front, word, back, -, -, rfl⟩ := mem_tokensFrom_iff.1 ht
      exact Nat.le_add_right _ _
    · exact ih _

/-- Tokens come in order, with characters between them. -/
theorem pairwise_tokens (text : String) :
    (tokens text).Pairwise fun a b => a.stop < b.first := by
  refine (pairwise_tokensFrom 0 _).imp_of_mem fun {a b} ha hb hle => Nat.lt_of_le_of_ne hle ?_
  obtain ⟨before, word, after, htext, h, rfl⟩ := mem_tokens_iff.1 ha
  obtain ⟨before', word', after', htext', h', rfl⟩ := mem_tokens_iff.1 hb
  intro (touch : byteLength (before ++ word) = byteLength before')
  -- a word that began where the first one stops would go on with it
  rw [htext, List.append_assoc before'] at htext'
  obtain ⟨mid, hbefore, hafter⟩ := exists_append_of_byteLength_le htext' touch.le
  rw [hbefore, byteLength_append (before ++ word)] at touch
  obtain rfl : mid = [] := byteLength_eq_zero_iff.1 (by omega)
  obtain ⟨c, rest, rfl⟩ := List.exists_cons_of_ne_nil h'.nonempty
  have ends := h.ends c (by rw [hafter]; rfl)
  rw [h'.alphanumeric c List.mem_cons_self] at ends
  cases ends

/-! ### Characters of tokens -/

/-- Whether a character behind others lies in the byte range of a token. -/
def Token.Covers (t : Token) (before : List Char) (c : Char) : Prop :=
  t.first ≤ byteLength before ∧ byteLength (before ++ [c]) ≤ t.stop

/-- No two tokens have a character in common. -/
theorem eq_of_covers {text : String} {before : List Char} {c : Char} {t t' : Token}
    (ht : t ∈ tokens text) (ht' : t' ∈ tokens text) (h : t.Covers before c)
    (h' : t'.Covers before c) : t = t' := by
  by_contra hne
  have apart : (tokens text).Pairwise fun a b => ¬(a.Covers before c ∧ b.Covers before c) := by
    refine (pairwise_tokens text).imp fun {a b} hlt ⟨ha, hb⟩ => ?_
    have stop := ha.2
    have first := hb.1
    rw [byteLength_append] at stop
    omega
  have : Std.Symm fun a b : Token => ¬(a.Covers before c ∧ b.Covers before c) :=
    ⟨fun _ _ hnot hand => hnot hand.symm⟩
  exact apart.forall ht ht' hne ⟨h, h'⟩

section Characters

variable {text : String} {before after : List Char} {c : Char}
  (htext : text.toList = before ++ c :: after)

include htext

theorem exists_covers (hc : Text.isAlphanumeric c = true) :
    ∃ t ∈ tokens text, t.Covers before c := by
  let more := after.takeWhile Text.isAlphanumeric
  have whole : beforeLastWord before ++ (lastWord before ++ c :: more) = before ++ [c] ++ more := by
    rw [← List.append_assoc, beforeLastWord_append_lastWord, List.append_assoc,
      List.singleton_append]
  refine ⟨_, mem_tokens_iff.2 ⟨_, _, _, ?_, wordIn_around before after hc, rfl⟩, ?_, ?_⟩
  · rw [whole, List.append_assoc, List.takeWhile_append_dropWhile, htext, List.append_assoc,
      List.singleton_append]
  · conv_rhs => rw [← beforeLastWord_append_lastWord before, byteLength_append]
    exact Nat.le_add_right _ _
  · rw [whole, byteLength_append (before ++ [c])]
    exact Nat.le_add_right _ _

theorem isAlphanumeric_of_covers {t : Token} (ht : t ∈ tokens text) (hcovers : t.Covers before c) :
    Text.isAlphanumeric c = true := by
  obtain ⟨front, word, back, htext', h, rfl⟩ := mem_tokens_iff.1 ht
  obtain ⟨hfirst, hstop⟩ := hcovers
  have from_front : front ++ (word ++ back) = before ++ c :: after := by
    rw [← htext, htext', List.append_assoc]
  have to_back : before ++ [c] ++ after = front ++ word ++ back := by
    rw [← htext', htext, List.append_assoc, List.singleton_append]
  obtain ⟨mid, hbefore, -⟩ := exists_append_of_byteLength_le from_front hfirst
  obtain ⟨mid', hword, -⟩ := exists_append_of_byteLength_le to_back hstop
  rw [hbefore, List.append_assoc, List.append_assoc] at hword
  exact h.alphanumeric c (List.append_cancel_left hword ▸ by simp)

/-- Each alphanumeric character lies in one token, and no other character lies in any. -/
theorem covers_iff : Text.isAlphanumeric c = true ↔ ∃! t, t ∈ tokens text ∧ t.Covers before c := by
  constructor
  · intro hc
    obtain ⟨t, ht, hcovers⟩ := exists_covers htext hc
    exact ⟨t, ⟨ht, hcovers⟩, fun t' ⟨ht', hcovers'⟩ =>
      eq_of_covers ht' ht hcovers' hcovers⟩
  · rintro ⟨t, ⟨ht, hcovers⟩, -⟩
    exact isAlphanumeric_of_covers htext ht hcovers

end Characters

/-! ### Phrases -/

/-- All tokens of a phrase that does not end in a word are complete. -/
theorem phraseTokens_of_no_word {text : String}
    (h : ∀ c ∈ text.toList.getLast?, Text.isAlphanumeric c = false) :
    phraseTokens text = ⟨tokenTexts text, none⟩ := by
  rw [phraseTokens, tokenTexts]
  cases hlast : (tokens text).getLast? with
  | none => rw [List.getLast?_eq_none_iff.1 hlast, List.map_nil]
  | some last =>
    obtain ⟨before, word, after, htext, hword, rfl⟩ :=
      mem_tokens_iff.1 (List.mem_of_mem_getLast? hlast)
    refine if_neg fun (hstop : byteLength (before ++ word) = byteLength text.toList) => ?_
    -- the last word would be followed by nothing, so that the phrase would end in it
    rw [htext, byteLength_append (before ++ word)] at hstop
    obtain rfl : after = [] := byteLength_eq_zero_iff.1 (by omega)
    rw [htext, List.append_nil, List.getLast?_append_of_ne_nil _ hword.nonempty] at h
    have last_not := h _ (List.getLast?_eq_some_getLast hword.nonempty)
    rw [hword.alphanumeric _ (List.getLast_mem _)] at last_not
    cases last_not

/-- A phrase has the tokens of its text, and the last one is unfinished if the phrase ends in a
word. -/
theorem phraseTokens_split (text : String) :
    (phraseTokens text).complete ++ (phraseTokens text).unfinished.toList = tokenTexts text ∧
      ((phraseTokens text).unfinished.isSome = true ↔
        ∃ c ∈ text.toList.getLast?, Text.isAlphanumeric c = true) := by
  by_cases ends : ∃ c ∈ text.toList.getLast?, Text.isAlphanumeric c = true
  · obtain ⟨c, hlast, hc⟩ := ends
    obtain ⟨start, hstart⟩ := List.getLast?_eq_some_iff.1 hlast
    have front : ∀ d ∈ (beforeLastWord text.toList).getLast?, Text.isAlphanumeric d = false :=
      fun d hd => not_isAlphanumeric_of_beforeLastWord hd
    have nonempty : lastWord text.toList ≠ [] := by
      rw [hstart, lastWord_append_singleton hc]
      simp
    have word : ∀ d ∈ lastWord text.toList, Text.isAlphanumeric d = true :=
      fun d hd => isAlphanumeric_of_mem_lastWord hd
    have phrase := phraseTokens_append_word front nonempty word
    have texts := tokenTexts_append_word front nonempty word
    rw [beforeLastWord_append_lastWord, String.ofList_toList] at phrase texts
    rw [phrase, texts]
    exact ⟨rfl, iff_of_true rfl ⟨c, hlast, hc⟩⟩
  · have no_word : ∀ c ∈ text.toList.getLast?, Text.isAlphanumeric c = false :=
      fun c hlast => Bool.eq_false_iff.2 fun hc => ends ⟨c, hlast, hc⟩
    rw [phraseTokens_of_no_word no_word]
    exact ⟨List.append_nil _, iff_of_false Bool.false_ne_true ends⟩

/-! ### The tokens of a text -/

/-- One pass over a text reads its tokens.  They are its words in order, with their byte ranges and
in lower case; the ranges are nonempty, hold the words and do not touch, and of the characters of the
text each alphanumeric one lies in one of them and no other one does.  A phrase has the same tokens,
and the last one is unfinished exactly if the phrase ends in an alphanumeric character. -/
theorem tokens_maximal_runs (text : String) :
    readTokens text.toList none 0 text.toList = .ok (tokens text) ∧
      (∀ t, t ∈ tokens text ↔ ∃ before word after, text.toList = before ++ word ++ after ∧
        WordIn before word after ∧
          t = ⟨tokenText word, byteLength before, byteLength (before ++ word)⟩) ∧
      ((tokens text).Pairwise fun a b => a.stop < b.first) ∧
      (∀ t ∈ tokens text, t.first < t.stop ∧ ∃ word,
        slice text.toList t.first t.stop = .ok word ∧ t.text = tokenText word) ∧
      (∀ before c after, text.toList = before ++ c :: after →
        (Text.isAlphanumeric c = true ↔ ∃! t, t ∈ tokens text ∧ t.Covers before c)) ∧
      (phraseTokens text).complete ++ (phraseTokens text).unfinished.toList = tokenTexts text ∧
      ((phraseTokens text).unfinished.isSome = true ↔
        ∃ c ∈ text.toList.getLast?, Text.isAlphanumeric c = true) := by
  refine ⟨readTokens_eq text.toList, fun t => mem_tokens_iff, pairwise_tokens text,
    fun t ht => ?_, fun before c after htext => covers_iff htext, phraseTokens_split text⟩
  obtain ⟨before, word, after, htext, h, rfl⟩ := mem_tokens_iff.1 ht
  refine ⟨?_, word, ?_, rfl⟩
  · have := byteLength_pos h.nonempty
    show byteLength before < byteLength (before ++ word)
    rw [byteLength_append]
    omega
  · rw [htext]
    exact slice_append before word after

/-- A word with a character of two bytes, and one that ends the text. -/
theorem tokens_maximal_runs_sample :
    tokens "né, 7" = [⟨"né", 0, 3⟩, ⟨"7", 5, 6⟩] ∧
      (∃ word, slice "né, 7".toList 0 3 = .ok word ∧ "né" = tokenText word) ∧
      (∃! t, t ∈ tokens "né, 7" ∧ t.Covers ['n'] 'é') ∧
      (phraseTokens "né, 7").unfinished.isSome = true := by
  have tokens_eq : tokens "né, 7" = [⟨"né", 0, 3⟩, ⟨"7", 5, 6⟩] := by decide +kernel
  have first : (⟨"né", 0, 3⟩ : Token) ∈ tokens "né, 7" := by
    rw [tokens_eq]
    exact List.mem_cons_self
  obtain ⟨-, -, -, cut, covered, -, unfinished⟩ := tokens_maximal_runs "né, 7"
  exact ⟨tokens_eq, (cut _ first).2, (covered ['n'] 'é' [',', ' ', '7'] rfl).1 (by decide +kernel),
    unfinished.2 ⟨'7', rfl, by decide +kernel⟩⟩

end ResumableQuery.Search
