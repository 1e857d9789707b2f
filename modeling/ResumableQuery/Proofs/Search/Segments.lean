import Mathlib.Data.List.DropRight
import Mathlib.Data.List.SplitBy
import ResumableQuery.Search.Analyzer

/-!
# Segments of a text

The segments of a text make up the whole of it, and a word behind characters that end in none is a
segment of its own.  So the tokens of a phrase that ends in a word are those of what comes before,
and the last word is unfinished (`phraseTokens_append_word`).
-/

namespace ResumableQuery.Search

/-! ### Lengths in bytes -/

theorem byteLength_append (cs ds : List Char) :
    byteLength (cs ++ ds) = byteLength cs + byteLength ds := by
  induction cs with
  | nil => exact (Nat.zero_add _).symm
  | cons c cs ih => rw [List.cons_append, byteLength, byteLength, ih, Nat.add_assoc]

theorem byteLength_eq_zero_iff {cs : List Char} : byteLength cs = 0 ↔ cs = [] := by
  cases cs with
  | nil => exact ⟨fun _ => rfl, fun _ => rfl⟩
  | cons c cs =>
    have := c.utf8Size_pos
    simp only [byteLength, reduceCtorEq, iff_false]
    omega

theorem byteLength_pos {cs : List Char} (h : cs ≠ []) : 0 < byteLength cs :=
  Nat.pos_of_ne_zero (mt byteLength_eq_zero_iff.1 h)

/-! ### Segments -/

theorem flatten_segments (cs : List Char) : (segments cs).flatten = cs :=
  List.flatten_splitBy _ cs

/-- Characters that are alike are one segment. -/
theorem segments_of_alike {run : List Char} {kind : Bool} (hne : run ≠ [])
    (alike : ∀ c ∈ run, Text.isAlphanumeric c = kind) : segments run = [run] := by
  refine List.splitBy_of_isChain hne (List.Pairwise.isChain ?_)
  refine List.pairwise_iff_forall_sublist.2 fun {a b} hsub => ?_
  rw [alike a (hsub.subset (by simp)), alike b (hsub.subset (by simp)), beq_self_eq_true]

/-- A text has a new segment where a character differs from the one before it. -/
theorem segments_append {cs ds : List Char} (h : ∀ a ∈ cs.getLast?, ∀ b ∈ ds.head?,
    Text.isAlphanumeric a ≠ Text.isAlphanumeric b) :
    segments (cs ++ ds) = segments cs ++ segments ds :=
  List.splitBy_append fun a ha b hb => beq_eq_false_iff_ne.2 (h a ha b hb)

/-! ### Tokens of consecutive segments -/

theorem tokensFrom_append (offset : Nat) (parts more : List (List Char)) :
    tokensFrom offset (parts ++ more) =
      tokensFrom offset parts ++ tokensFrom (offset + byteLength parts.flatten) more := by
  induction parts generalizing offset with
  | nil => rfl
  | cons part parts ih =>
    rw [List.cons_append, tokensFrom, tokensFrom, ih, List.flatten_cons, byteLength_append,
      Nat.add_assoc]
    split <;> rfl

theorem isWord_of_alike {run : List Char} {kind : Bool} (hne : run ≠ [])
    (alike : ∀ c ∈ run, Text.isAlphanumeric c = kind) : isWord run = kind := by
  obtain ⟨c, rest, rfl⟩ := List.exists_cons_of_ne_nil hne
  exact alike c List.mem_cons_self

/-- Characters that belong to no word have no tokens. -/
theorem tokensFrom_segments_blank {run : List Char} (offset : Nat)
    (blank : ∀ c ∈ run, Text.isAlphanumeric c = false) : tokensFrom offset (segments run) = [] := by
  by_cases hne : run = []
  · rw [hne]
    rfl
  · rw [segments_of_alike hne blank, tokensFrom, isWord_of_alike hne blank]
    rfl

theorem tokensFrom_segments_word {word : List Char} (offset : Nat) (hne : word ≠ [])
    (hword : ∀ c ∈ word, Text.isAlphanumeric c = true) : tokensFrom offset (segments word) =
      [⟨tokenText word, offset, offset + byteLength word⟩] := by
  rw [segments_of_alike hne hword, tokensFrom, isWord_of_alike hne hword]
  rfl

theorem tokensFrom_segments_append {cs ds : List Char} (offset : Nat)
    (h : ∀ a ∈ cs.getLast?, ∀ b ∈ ds.head?, Text.isAlphanumeric a ≠ Text.isAlphanumeric b) :
    tokensFrom offset (segments (cs ++ ds)) =
      tokensFrom offset (segments cs) ++ tokensFrom (offset + byteLength cs) (segments ds) := by
  rw [segments_append h, tokensFrom_append, flatten_segments]

/-! ### Words at the end -/

/-- The word that characters end in; it is empty if they end in none. -/
def lastWord (cs : List Char) : List Char := cs.rtakeWhile Text.isAlphanumeric

/-- The characters before the last word. -/
def beforeLastWord (cs : List Char) : List Char := cs.rdropWhile Text.isAlphanumeric

theorem beforeLastWord_append_lastWord (cs : List Char) :
    beforeLastWord cs ++ lastWord cs = cs := by
  rw [beforeLastWord, lastWord, List.rdropWhile, List.rtakeWhile, ← List.reverse_append,
    List.takeWhile_append_dropWhile, List.reverse_reverse]

theorem isAlphanumeric_of_mem_lastWord {cs : List Char} {c : Char} (h : c ∈ lastWord cs) :
    Text.isAlphanumeric c = true :=
  List.mem_rtakeWhile_imp h

theorem lastWord_append_singleton {cs : List Char} {c : Char}
    (h : Text.isAlphanumeric c = true) : lastWord (cs ++ [c]) = lastWord cs ++ [c] :=
  List.rtakeWhile_concat_pos _ _ c h

theorem not_isAlphanumeric_of_beforeLastWord {cs : List Char} {c : Char}
    (h : c ∈ (beforeLastWord cs).getLast?) : Text.isAlphanumeric c = false := by
  obtain ⟨hne, rfl⟩ := List.mem_getLast?_eq_getLast h
  exact Bool.eq_false_iff.2 (List.rdropWhile_last_not _ _ hne)

section Word

variable {front word : List Char} (hfront : ∀ c ∈ front.getLast?, Text.isAlphanumeric c = false)
  (hne : word ≠ []) (hword : ∀ c ∈ word, Text.isAlphanumeric c = true)

include hfront hne hword

theorem tokens_append_word : tokens (String.ofList (front ++ word)) =
    tokens (String.ofList front) ++
      [⟨tokenText word, byteLength front, byteLength (front ++ word)⟩] := by
  have differ : ∀ a ∈ front.getLast?, ∀ b ∈ word.head?,
      Text.isAlphanumeric a ≠ Text.isAlphanumeric b := by
    intro a ha b hb
    rw [hfront a ha, hword b (List.mem_of_mem_head? hb)]
    decide
  rw [tokens, tokens, String.toList_ofList, String.toList_ofList,
    tokensFrom_segments_append 0 differ, tokensFrom_segments_word _ hne hword, byteLength_append,
    Nat.zero_add]

theorem tokenTexts_append_word : tokenTexts (String.ofList (front ++ word)) =
    tokenTexts (String.ofList front) ++ [tokenText word] := by
  rw [tokenTexts, tokens_append_word hfront hne hword, List.map_append]
  rfl

/-- The last word of a phrase that ends in it is unfinished. -/
theorem phraseTokens_append_word : phraseTokens (String.ofList (front ++ word)) =
    ⟨tokenTexts (String.ofList front), some (tokenText word)⟩ := by
  rw [phraseTokens, tokens_append_word hfront hne hword]
  simp [tokenTexts]

end Word

end ResumableQuery.Search
