import ResumableQuery.Cursor.Adapter
import ResumableQuery.Cursor.Source
import ResumableQuery.IndexEntry
import ResumableQuery.Search.Index
import ResumableQuery.Text.Blank
import ResumableQuery.Text.EditDistance

/-!
# Spelling

The indexed terms at a small edit distance from a word, other than the word itself: the nearest come
first, and of those the most frequent.  The terms are read once, when the first row is asked for.
-/

namespace ResumableQuery.Search

/-- A search for indexed terms that are spelled like a word. -/
structure Spelling where
  index : Index
  word : String
  /-- The fields to look at; all of them if none is named. -/
  fields : List String
  groupingKey : Tuple
  limits : ScanProperties

/-- An indexed term near a word. -/
structure Suggestion where
  field : String
  term : String
  distance : Nat
  /-- How many documents have the term. -/
  frequency : Nat
  deriving DecidableEq, Repr

namespace Suggestion

/-- The order of suggestions: nearest first, then most frequent, then by term and field. -/
def order (a b : Suggestion) : Ordering :=
  (((compare a.distance b.distance).then (compare b.frequency a.frequency)).then
    (compare a.term b.term)).then (compare a.field b.field)

end Suggestion

namespace Spelling

/-- The largest distance of a suggestion. -/
def mostEdits : Nat := 2

/-- The suggestion of a term, if it is near the word and not the word itself. -/
def suggestion? (s : Spelling) (field term : String) (frequency : Nat) : Option Suggestion :=
  let word := Text.lowercase s.word
  let distance := Text.alignmentDistance word term
  if term ≠ word ∧ distance ≤ mostEdits then some ⟨field, term, distance, frequency⟩ else none

/-- The suggestions from a field. -/
def fieldSuggestions (s : Spelling) (reader : Reader) (d : Directory) (field : String) :
    Except SearchError (List Suggestion) := do
  let terms ← reader.terms d field
  return terms.filterMap fun (term, frequency) => s.suggestion? field term frequency

/-- The suggestions in order. -/
def suggestions (s : Spelling) (d : Directory) : Except SearchError (List Suggestion) := do
  let reader ← d.reader (s.index.place s.groupingKey)
  let fields ← if s.fields.isEmpty then reader.fieldNames d else pure (Ordered.keysOf s.fields)
  let found ← fields.mapM (s.fieldSuggestions reader d)
  return found.flatten.mergeSort fun a b => (a.order b).isLE

/-- How alike the word and a suggestion are: one, less the distance as a part of the longer of both
words. -/
def similarity (s : Spelling) (g : Suggestion) : Binary32 :=
  let longest := max (max s.word.toList.length g.term.toList.length) 1
  (Binary32.ofNat 1).sub ((Binary32.ofNat g.distance).div (Binary32.ofNat longest))

/-- The entry of a suggestion. -/
def entry (s : Spelling) (g : Suggestion) : IndexEntry :=
  ⟨s.index.name, s.groupingKey ++ [.text g.field, .text g.term], [.float (s.similarity g).widen],
    none⟩

/-- A failure of the search engine. -/
def failure (s : Spelling) (e : SearchError) : CursorError :=
  ((CursorError.ofCause (.search e)).add "index_name" s.index.name).add "word" s.word

/-- The entries of all suggestions. -/
def rows (s : Spelling) : Cursor IndexEntry :=
  .consult fun w =>
    match s.suggestions w.directory with
    | .ok found => (Cursor.ofList (found.map s.entry)).skipThenLimit s.limits .start
    | .error (.indexNotFound _ _) => .exhausted
    | .error e => .fail (s.failure e)

/-- The search for a word within the limits of a request. -/
def new (index : Index) (word : String) (fields : List String) (groupingKey : Tuple)
    (p : ScanProperties) : Except CursorError Spelling :=
  if word.toList.all Text.isBlank then
    .error ((CursorError.argument "invalid word for spell-check").add "index_name" index.name)
  else
    .ok ⟨index, word, fields, groupingKey,
      (ScanProperties.forward.withSkip p.skip).withLimit (p.limit.getD 0)⟩

end Spelling

end ResumableQuery.Search
