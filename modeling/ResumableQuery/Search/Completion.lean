import ResumableQuery.Cursor.FlatMap
import ResumableQuery.IndexEntry
import ResumableQuery.Search.Highlight
import ResumableQuery.Search.Index

/-!
# Auto-completion

What was typed is looked up once, when the first row is asked for.  The best documents are found in
the index, their records are loaded as they are now, and each indexed text of a record is searched
again, so that only texts which really hold what was typed are suggested.  A phrase in quotes must
match as a phrase.  A completion cannot be resumed; a caller pages by leaving out more rows.
-/

namespace ResumableQuery.Search

/-- A search for texts that hold a phrase whose last word may be unfinished. -/
structure Completion where
  index : Index
  phrase : String
  groupingKey : Tuple
  highlight : Bool
  /-- The most documents to look up, and the most rows; as rows, zero is no limit. -/
  limit : Nat
  /-- Rows to leave out. -/
  skip : Nat

/-- A hit with its record, if that still exists. -/
structure LoadedHit where
  hit : ScoreDoc
  primaryKey : Tuple
  record : Option Record

namespace Completion

/-- Whether the phrase is in quotes. -/
def isQuoted (s : Completion) : Bool :=
  2 ≤ s.phrase.toList.length && s.phrase.toList.head? == some '"' &&
    s.phrase.toList.getLast? == some '"'

/-- What is to be found, without quotes. -/
def searchText (s : Completion) : String :=
  if s.isQuoted then String.ofList s.phrase.toList.tail.dropLast else s.phrase

/-- The words to be found. -/
def wanted (s : Completion) : PhraseTokens := phraseTokens s.searchText

/-- The finished words to be found, each once and in order. -/
def tokenSet (s : Completion) : List String := Ordered.keysOf s.wanted.complete

/-- The query for the words in some fields. -/
def query (s : Completion) (fields : List String) : Query :=
  if s.isQuoted then Query.anyPhrase fields s.wanted.complete s.wanted.unfinished
  else Query.allTerms fields s.tokenSet s.wanted.unfinished

/-- A failure of the search engine. -/
def failure (s : Completion) (e : SearchError) : CursorError :=
  ((CursorError.ofCause (.search e)).add "query" s.phrase).add "index_name" s.index.name

/-- The lookup of the record of a hit. -/
def lookup (s : Completion) (reader : Reader) (hit : ScoreDoc) : Lookup :=
  ⟨reader, hit.doc, s.index.records.store, s.index.records.subspace⟩

/-- The loaded hit in what its lookup found. -/
def load (s : Completion) (hit : ScoreDoc) (found : Found) : Except CursorError LoadedHit :=
  match found with
  | .error e =>
    .error (((CursorError.ofCause (.search e)).add "index_name" s.index.name).add
      "doc" (toString hit.doc))
  | .ok (primaryKey, value) =>
    match RecordStore.decodeFound value with
    | .ok record => .ok ⟨hit, primaryKey, record⟩
    | .error e => .error (.ofCause (.store e))

/-- The suggestion of an indexed value, if it is a text that is not too long and holds what was
typed. -/
def suggestion? (s : Completion) (h : LoadedHit) (f : DocumentField) : Option IndexEntry := do
  let text ← f.text?
  if text.toList.length ≤ s.index.records.config.autoCompleteTextLimit then
    let found ← searchAll text s.tokenSet s.wanted.unfinished s.highlight
    return ⟨s.index.name, s.groupingKey ++ [.text f.name, .text found], [.float h.hit.score.widen],
      some h.primaryKey⟩
  else none

/-- The suggestions of a loaded hit, provided that its record is still of the partition. -/
def suggestions (s : Completion) (h : LoadedHit) : Except CursorError (List IndexEntry) := do
  match ← s.index.fieldsOf h.record with
  | some (groupingKey, fields) =>
    return if groupingKey == s.groupingKey then fields.filterMap (s.suggestion? h) else []
  | none => return []

/-- The loaded hits; the continuation after one is the hit itself. -/
def loaded (s : Completion) (reader : Reader) (hits : List ScoreDoc) : Cursor LoadedHit :=
  let depth := s.index.records.config.pipelineSize .keyToRecord
  ((Cursor.ofList hits).pipelined (fun hit => .find (s.lookup reader hit) (s.load hit))
    depth).mapResult (fun h _ => (h, h.hit.toContinuation)) (fun _ _ => (.sourceExhausted, .done))

/-- How the suggestions of loaded hits are put together. -/
def nesting (s : Completion) : Cursor.Nesting LoadedHit IndexEntry where
  openInner h c := .compute 0 fun _ => do Cursor.list (← s.suggestions h) c
  check := some (·.primaryKey.pack)
  depth := 1

/-- The limits on rows. -/
def limits (s : Completion) : ScanProperties :=
  (ScanProperties.forward.withSkip s.skip).withLimit s.limit

/-- The best hits for what was typed. -/
def lookUp (s : Completion) (d : Directory) : Except SearchError (Reader × List ScoreDoc) := do
  let reader ← d.reader (s.index.place s.groupingKey)
  let fields ← reader.fieldNames d
  let top ← reader.search d (s.query fields) none (min (s.limit + s.skip) maxCount)
  return (reader, top.hits)

/-- The suggestions. -/
def rows (s : Completion) : Cursor IndexEntry :=
  .consult fun w =>
    match s.lookUp w.directory with
    | .ok (reader, hits) =>
      let nested := s.nesting.openAt (fun _ => .ok (s.loaded reader hits)) .start
      (Cursor.ofExcept nested).skipThenLimit s.limits .start
    | .error (.indexNotFound _ _) => .exhausted
    | .error e => .fail (s.failure e)

/-- The completion of a phrase within the limits of a request. -/
def new (index : Index) (phrase : String) (groupingKey : Tuple) (highlight : Bool)
    (p : ScanProperties) : Except CursorError Completion :=
  if phrase.isEmpty then
    .error (((CursorError.argument "invalid query for auto-complete search").add "query" phrase).add
      "index_name" index.name)
  else
    let limit := min (p.limit.getD maxCount) index.records.config.autoCompleteSearchLimit
    .ok ⟨index, phrase, groupingKey, highlight, limit, p.skip⟩

end Completion

end ResumableQuery.Search
