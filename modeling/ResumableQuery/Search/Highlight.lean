import ResumableQuery.Search.Analyzer

/-!
# Highlighting

A text satisfies a set of tokens and an unfinished word when it has every token, and some further
word that begins with the unfinished one.  Highlighting puts `<b>` and `</b>` around what was
matched: the whole word for a token, as many characters as were typed for the unfinished word.
-/

namespace ResumableQuery.Search

/-- What a word of a text is matched by. -/
inductive Match where
  | token
  | unfinished (typed : String)
  | nothing
  deriving DecidableEq, Repr

/-- What a word is matched by; tokens come first. -/
def matchWord (wanted : List String) (unfinished : Option String) (word : List Char) : Match :=
  let t := tokenText word
  if wanted.contains t then .token
  else
    match unfinished with
    | some typed => if beginsWith t typed then .unfinished typed else .nothing
    | none => .nothing

/-- Characters between markers. -/
def marked (cs : List Char) : List Char := "<b>".toList ++ cs ++ "</b>".toList

/-- A word with markers around what was matched. -/
def Match.highlight (word : List Char) : Match → List Char
  | .token => marked word
  | .unfinished typed =>
    marked (word.take typed.toList.length) ++ word.drop typed.toList.length
  | .nothing => word

/-- A segment with markers around what was matched. -/
def highlightSegment (wanted : List String) (unfinished : Option String) (segment : List Char) :
    List Char :=
  if isWord segment then (matchWord wanted unfinished segment).highlight segment else segment

/-- Whether a text has every wanted token, and a further word for the unfinished one. -/
def satisfies (wanted : List String) (unfinished : Option String) (text : String) : Bool :=
  let words := (segments text.toList).filter isWord
  let found := words.map tokenText
  let outcomes := words.map (matchWord wanted unfinished)
  wanted.all found.contains &&
    unfinished.all fun typed => outcomes.contains (.unfinished typed)

/-- The text if it satisfies the tokens, with markers if they are asked for. -/
def searchAll (text : String) (wanted : List String) (unfinished : Option String)
    (highlight : Bool) : Option String :=
  if satisfies wanted unfinished text then
    if highlight then
      some (String.ofList ((segments text.toList).flatMap (highlightSegment wanted unfinished)))
    else some text
  else none

end ResumableQuery.Search
