import ResumableQuery.Text.Lowercase

/-!
# Text analysis

Indexing, querying and highlighting all see a text as a sequence of segments: maximal runs of
alphanumeric characters, which are its words, and the runs between them.  The token of a word is the
word in lower case.
-/

namespace ResumableQuery.Search

/-- The maximal runs of characters that are alike in being alphanumeric, in order. -/
def segments (cs : List Char) : List (List Char) :=
  cs.splitBy fun a b => Text.isAlphanumeric a == Text.isAlphanumeric b

/-- Whether a segment is a word. -/
def isWord (segment : List Char) : Bool := segment.head?.any Text.isAlphanumeric

/-- The token of a word. -/
def tokenText (word : List Char) : String := Text.lowercase (String.ofList word)

/-- A word of a text in lower case, with the byte range of the word. -/
structure Token where
  text : String
  first : Nat
  stop : Nat
  deriving DecidableEq, Repr

/-- Number of bytes that characters take. -/
def byteLength : List Char → Nat
  | [] => 0
  | c :: rest => c.utf8Size + byteLength rest

/-- The tokens of consecutive segments that begin at a byte offset. -/
def tokensFrom (offset : Nat) : List (List Char) → List Token
  | [] => []
  | s :: rest =>
    let stop := offset + byteLength s
    if isWord s then ⟨tokenText s, offset, stop⟩ :: tokensFrom stop rest else tokensFrom stop rest

/-- The tokens of a text in order. -/
def tokens (text : String) : List Token := tokensFrom 0 (segments text.toList)

/-- The token texts of a text in order. -/
def tokenTexts (text : String) : List String := (tokens text).map (·.text)

/-- The tokens of a search phrase.  The last word counts as unfinished when the phrase ends in
it. -/
structure PhraseTokens where
  complete : List String
  unfinished : Option String
  deriving DecidableEq, Repr

/-- The tokens of a search phrase. -/
def phraseTokens (phrase : String) : PhraseTokens :=
  let ts := tokens phrase
  match ts.getLast? with
  | none => ⟨[], none⟩
  | some last =>
    if last.stop = byteLength phrase.toList then ⟨ts.dropLast.map (·.text), some last.text⟩
    else ⟨ts.map (·.text), none⟩

/-- Whether a text begins with another. -/
def beginsWith (text start : String) : Bool := start.toList.isPrefixOf text.toList

end ResumableQuery.Search
