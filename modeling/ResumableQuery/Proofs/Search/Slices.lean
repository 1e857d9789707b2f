import ResumableQuery.Proofs.Except
import ResumableQuery.Proofs.Search.Segments

/-!
# Byte ranges of a text

A byte range is one of a text only if both of its ends lie between characters (`slice_eq_ok_iff`).
Tokens can be read in one pass over a text that remembers where a word began and cuts it out where
it ends.  All ranges that this pass cuts out are ranges of the text, and it finds the tokens
(`readTokens_eq`).
-/

namespace ResumableQuery.Search

/-! ### Slices -/

/-- The characters before and those after a byte offset, if it lies between characters. -/
def splitBytes : List Char → Nat → Option (List Char × List Char)
  | cs, 0 => some ([], cs)
  | [], _ + 1 => none
  | c :: cs, n + 1 =>
    if c.utf8Size ≤ n + 1 then
      (splitBytes cs (n + 1 - c.utf8Size)).map fun (front, back) => (c :: front, back)
    else none

theorem splitBytes_append (front back : List Char) :
    splitBytes (front ++ back) (byteLength front) = some (front, back) := by
  induction front with
  | nil => rw [List.nil_append, byteLength, splitBytes]
  | cons c front ih =>
    obtain ⟨n, hn⟩ := Nat.exists_eq_add_one.2 (Nat.add_pos_left c.utf8Size_pos (byteLength front))
    have fits : c.utf8Size ≤ n + 1 := by omega
    have rest : n + 1 - c.utf8Size = byteLength front := by omega
    rw [List.cons_append, byteLength, hn, splitBytes, if_pos fits, rest, ih]
    rfl

theorem splitBytes_eq_some_iff {cs front back : List Char} {n : Nat} :
    splitBytes cs n = some (front, back) ↔ cs = front ++ back ∧ byteLength front = n := by
  constructor
  · intro h
    induction cs, n using splitBytes.induct generalizing front with
    | case1 cs =>
      rw [splitBytes] at h
      obtain ⟨rfl, rfl⟩ := Prod.mk.inj (Option.some.inj h)
      exact ⟨rfl, rfl⟩
    | case2 n => cases h
    | case3 c cs n hfits ih =>
      rw [splitBytes, if_pos hfits] at h
      obtain ⟨⟨front', back'⟩, hrest, heq⟩ := Option.map_eq_some_iff.1 h
      obtain ⟨rfl, rfl⟩ := Prod.mk.inj heq
      obtain ⟨rfl, hlength⟩ := ih hrest
      refine ⟨rfl, ?_⟩
      rw [byteLength, hlength]
      omega
    | case4 c cs n hfits =>
      rw [splitBytes, if_neg hfits] at h
      cases h
  · rintro ⟨rfl, rfl⟩
    exact splitBytes_append front back

/-- A byte range that is none of a text: it is reversed, goes beyond the end of the text or has an
end inside of a character. -/
structure BadRange where
  first : Nat
  stop : Nat
  deriving DecidableEq, Repr

/-- The characters of a byte range of a text. -/
def slice (text : List Char) (first stop : Nat) : Except BadRange (List Char) :=
  match splitBytes text stop with
  | none => .error ⟨first, stop⟩
  | some (front, _) =>
    match splitBytes front first with
    | none => .error ⟨first, stop⟩
    | some (_, part) => .ok part

theorem slice_eq_ok_iff {text part : List Char} {first stop : Nat} :
    slice text first stop = .ok part ↔ ∃ before after, text = before ++ part ++ after ∧
      byteLength before = first ∧ byteLength (before ++ part) = stop := by
  constructor
  · intro h
    unfold slice at h
    split at h
    · cases h
    · rename_i front after htext
      obtain ⟨rfl, rfl⟩ := splitBytes_eq_some_iff.1 htext
      split at h
      · cases h
      · rename_i before part' hfront
        obtain ⟨rfl, rfl⟩ := splitBytes_eq_some_iff.1 hfront
        obtain rfl := Except.ok.inj h
        exact ⟨before, after, rfl, rfl, rfl⟩
  · rintro ⟨before, after, rfl, rfl, rfl⟩
    rw [slice, splitBytes_append]
    dsimp only
    rw [splitBytes_append]

theorem slice_append (before part after : List Char) :
    slice (before ++ part ++ after) (byteLength before) (byteLength (before ++ part)) = .ok part :=
  slice_eq_ok_iff.2 ⟨before, after, rfl, rfl, rfl⟩

theorem slice_front (front back : List Char) :
    slice (front ++ back) 0 (byteLength front) = .ok front :=
  slice_eq_ok_iff.2 ⟨[], back, rfl, rfl, rfl⟩

theorem slice_back (front back : List Char) :
    slice (front ++ back) (byteLength front) (byteLength (front ++ back)) = .ok back :=
  slice_eq_ok_iff.2 ⟨front, [], (List.append_nil _).symm, rfl, rfl⟩

/-! ### Reading tokens -/

/-- The tokens that end in the rest of a text or at its end.  The rest begins at a byte offset, and
the word that goes on there began at `first`, if one does. -/
def readTokens (text : List Char) :
    (first : Option Nat) → (offset : Nat) → List Char → Except BadRange (List Token)
  | none, _, [] => .ok []
  | some first, _, [] => do
    let word ← slice text first (byteLength text)
    .ok [⟨tokenText word, first, byteLength text⟩]
  | none, offset, c :: rest =>
    readTokens text (if Text.isAlphanumeric c then some offset else none) (offset + c.utf8Size) rest
  | some first, offset, c :: rest =>
    if Text.isAlphanumeric c then readTokens text (some first) (offset + c.utf8Size) rest
    else do
      let word ← slice text first offset
      let later ← readTokens text none (offset + c.utf8Size) rest
      .ok (⟨tokenText word, first, offset⟩ :: later)

/-- What is read behind a run of characters that are alike: its own token, if it is a word, and the
tokens behind it. -/
theorem readTokens_run (before run rest : List Char) (kind : Bool)
    (alike : ∀ c ∈ run, Text.isAlphanumeric c = kind) (hne : kind = true → run ≠ []) :
    readTokens (before ++ run ++ rest) (if kind then some (byteLength before) else none)
        (byteLength (before ++ run)) rest =
      .ok (tokensFrom (byteLength before) (segments (run ++ rest))) := by
  induction rest generalizing before run kind with
  | nil =>
    rw [List.append_nil, List.append_nil]
    cases kind with
    | false =>
      rw [tokensFrom_segments_blank _ alike]
      rfl
    | true =>
      rw [tokensFrom_segments_word _ (hne rfl) alike, ← byteLength_append, if_pos rfl, readTokens,
        slice_back]
      rfl
  | cons c rest ih =>
    have size : byteLength (before ++ run) + c.utf8Size = byteLength (before ++ run ++ [c]) := by
      rw [byteLength_append (before ++ run), byteLength, byteLength, Nat.add_zero]
    -- the run goes on with the character, or it ends and the character begins the next one
    have goes_on (hc : Text.isAlphanumeric c = kind) := ih before (run ++ [c]) kind
      (List.forall_mem_append.2 ⟨alike, List.forall_mem_singleton.2 hc⟩) (by simp)
    have begins := ih (before ++ run) [c] (Text.isAlphanumeric c)
      (List.forall_mem_singleton.2 rfl) (by simp)
    have ends (hc : Text.isAlphanumeric c ≠ kind) :
        tokensFrom (byteLength before) (segments (run ++ c :: rest)) =
          tokensFrom (byteLength before) (segments run) ++
            tokensFrom (byteLength before + byteLength run) (segments (c :: rest)) := by
      refine tokensFrom_segments_append _ fun a ha b hb => ?_
      rw [alike a (List.mem_of_mem_getLast? ha), ← Option.some.inj hb]
      exact hc.symm
    rw [← List.append_assoc before, ← size, List.append_assoc, List.append_assoc run,
      List.singleton_append] at goes_on
    rw [← size, List.append_assoc, List.singleton_append] at begins
    cases kind with
    | false =>
      rw [if_neg Bool.false_ne_true, readTokens]
      cases hc : Text.isAlphanumeric c with
      | false => exact goes_on hc
      | true =>
        rw [ends (by rw [hc]; decide), tokensFrom_segments_blank _ alike, List.nil_append,
          ← byteLength_append]
        rw [hc] at begins
        exact begins
    | true =>
      rw [if_pos rfl, readTokens]
      cases hc : Text.isAlphanumeric c with
      | true => exact goes_on hc
      | false =>
        rw [hc] at begins
        rw [if_neg Bool.false_ne_true, slice_append, ends (by rw [hc]; decide),
          tokensFrom_segments_word _ (hne rfl) alike, ← byteLength_append]
        rw [if_neg Bool.false_ne_true] at begins
        rw [Except.ok_bind, begins]
        rfl

/-- One pass over a text reads its tokens, and each range that it cuts out is one of the text. -/
theorem readTokens_eq (text : List Char) :
    readTokens text none 0 text = .ok (tokensFrom 0 (segments text)) :=
  readTokens_run [] [] text false (by simp) (by simp)

end ResumableQuery.Search
