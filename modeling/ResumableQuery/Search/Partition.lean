import ResumableQuery.Error
import ResumableQuery.Position
import ResumableQuery.Search.Analyzer
import ResumableQuery.Search.Query

/-!
# Index partitions

A partition is an inverted index over documents.  Documents are numbered in the order in which they
were added; a deleted document leaves a gap that is never filled, because continuations hold
document numbers.  For each field and term the partition keeps the documents that have the term.
-/

namespace ResumableQuery.Search

/-- A document of a partition: the primary key of its record and the tokens of its fields. -/
structure StoredDocument where
  primaryKey : Tuple
  fields : List (String × List String)
  deriving Repr

namespace StoredDocument

/-- The document of some named texts.  The tokens of several texts of one name follow each other. -/
def ofTexts (primaryKey : Tuple) (texts : List (String × String)) : StoredDocument where
  primaryKey := primaryKey
  fields := texts.foldl (fun fields (name, text) =>
    Ordered.insert name ((Ordered.find? name fields).getD [] ++ tokenTexts text) fields) []

/-- The tokens of a field. -/
def tokens (d : StoredDocument) (field : String) : List String :=
  (Ordered.find? field d.fields).getD []

end StoredDocument

/-- For each field, the documents that have each term. -/
abbrev Postings := List (String × List (String × List Nat))

namespace Postings

/-- The documents that have a term in a field. -/
def documents (p : Postings) (field term : String) : List Nat :=
  ((Ordered.find? field p).bind (Ordered.find? term)).getD []

/-- The postings in which a document has some terms in a field. -/
def addField (p : Postings) (doc : Nat) (field : String) (terms : List String) : Postings :=
  let held := (Ordered.find? field p).getD []
  let added := terms.foldl (fun held term =>
    Ordered.insert term (Ordered.insertKey doc ((Ordered.find? term held).getD [])) held) held
  Ordered.insert field added p

/-- The terms of a field without a document; terms that no document has are dropped. -/
def dropTerms (doc : Nat) (terms : List String) (held : List (String × List Nat)) :
    List (String × List Nat) :=
  terms.foldl (fun held term =>
    match Ordered.find? term held with
    | none => held
    | some docs =>
      let left := Ordered.eraseKey doc docs
      if left.isEmpty then Ordered.erase term held else Ordered.insert term left held) held

/-- The postings in which a document has no terms in a field; a field without terms is dropped. -/
def removeField (p : Postings) (doc : Nat) (field : String) (terms : List String) : Postings :=
  match Ordered.find? field p with
  | none => p
  | some held =>
    let left := dropTerms doc terms held
    if left.isEmpty then Ordered.erase field p else Ordered.insert field left p

end Postings

/-- An inverted index over documents. -/
structure Partition where
  /-- Name of the index that the partition is part of. -/
  indexName : String
  /-- What the records of the partition have in common. -/
  groupingKey : Tuple
  /-- Documents by number; a deleted one leaves a gap. -/
  documents : List (Option StoredDocument)
  /-- Number of the live document of each packed primary key. -/
  byPrimaryKey : List (Bytes × Nat)
  postings : Postings
  deriving Repr

namespace Partition

/-- A partition to which nothing was added yet. -/
def empty (indexName : String) (groupingKey : Tuple) : Partition :=
  ⟨indexName, groupingKey, [], [], []⟩

/-- The live document of a number. -/
def document? (p : Partition) (doc : Nat) : Option StoredDocument := (p.documents[doc]?).join

/-- The live documents with their numbers, in order. -/
def live (p : Partition) : List (Nat × StoredDocument) :=
  p.documents.zipIdx.filterMap fun (d, n) => d.map fun d => (n, d)

/-- Number of live documents. -/
def liveCount (p : Partition) : Nat := p.live.length

/-! ### Changes -/

/-- The partition without the document of a primary key, and whether there was one. -/
def delete (p : Partition) (primaryKey : Tuple) : Partition × Bool :=
  match Ordered.find? primaryKey.pack p.byPrimaryKey with
  | none => (p, false)
  | some doc =>
    let p := { p with byPrimaryKey := Ordered.erase primaryKey.pack p.byPrimaryKey }
    match p.document? doc with
    | none => (p, false)
    | some d =>
      ({ p with
          documents := p.documents.set doc none
          postings := d.fields.foldl (fun postings (field, terms) =>
            postings.removeField doc field terms) p.postings }, true)

/-- The partition with a document of named texts, in place of any document of its primary key, and
the number of the new document. -/
def add (p : Partition) (primaryKey : Tuple) (texts : List (String × String)) : Partition × Nat :=
  let d := StoredDocument.ofTexts primaryKey texts
  let p := (p.delete primaryKey).1
  let doc := p.documents.length
  ({ p with
      documents := p.documents ++ [some d]
      byPrimaryKey := Ordered.insert primaryKey.pack doc p.byPrimaryKey
      postings := d.fields.foldl (fun postings (field, terms) =>
        postings.addField doc field terms) p.postings }, doc)

/-! ### Scores -/

/-- Weight of a term in a field: the rarer among the live documents, the greater. -/
def weight (p : Partition) (field term : String) : Binary32 :=
  let live := Binary32.ofNat p.liveCount
  let having := Binary32.ofNat (p.postings.documents field term).length
  let one := Binary32.ofNat 1
  one.add ((live.add one).div (having.add one)).ln

/-- The positions at which a property holds, as ranges of one position. -/
def positionsOf (holds : String → Bool) (tokens : List String) : List (Nat × Nat) :=
  (tokens.zipIdx.filter fun (t, _) => holds t).map fun (_, i) => (i, i + 1)

/-- Where a run of spans ends that begins at `stop`, takes for each clause the first span that
follows, and leaves at most `room` positions between them. -/
def chain (room : Nat) (stop : Nat) : List (List (Nat × Nat)) → Option Nat
  | [] => some stop
  | spans :: rest =>
    match spans.find? fun (first, _) => stop ≤ first with
    | none => none
    | some (first, next) =>
      let gap := first - stop
      if gap ≤ room then chain (room - gap) next rest else none

mutual

/-- The ranges of positions at which a span query matches a document, by their beginnings. -/
def spans (d : StoredDocument) : Query → List (Nat × Nat)
  | .spanTerm field t => positionsOf (· == t) (d.tokens field)
  | .spanStart field start => positionsOf (beginsWith · start) (d.tokens field)
  | .mask query _ => spans d query
  | .spanNear _ clauses slop =>
    match allSpans d clauses with
    | [] => []
    | starts :: rest =>
      starts.filterMap fun (first, stop) => (chain slop stop rest).map fun last => (first, last)
  | _ => []

/-- The matches of each of several span queries. -/
def allSpans (d : StoredDocument) : List Query → List (List (Nat × Nat))
  | [] => []
  | q :: rest => spans d q :: allSpans d rest

end

/-- How many times some terms occur at consecutive positions. -/
def countWindows (terms : List String) : List String → Nat
  | [] => 0
  | t :: rest => (if terms.isPrefixOf (t :: rest) then 1 else 0) + countWindows terms rest

/-- Square root of how often something occurs, if it does. -/
def frequencyScore (count : Nat) : Option Binary32 :=
  if count = 0 then none else some (Binary32.ofNat count).sqrt

/-- Sum of the scores of the clauses of a boolean query seen so far, and how many optional ones
matched. -/
structure Tally where
  total : Binary32
  matched : Nat

/-- The tally with one more clause; none if a clause that has to match does not. -/
def Tally.add (t : Tally) (occur : Occur) (score : Option Binary32) : Option Tally :=
  match occur, score with
  | .must, none => none
  | .must, some s => some { t with total := t.total.add s }
  | .should, some s => some ⟨t.total.add s, t.matched + 1⟩
  | .should, none => some t

mutual

/-- Score of a document, if it matches. -/
def score (p : Partition) (d : StoredDocument) : Query → Option Binary32
  | .term field t =>
    (frequencyScore ((d.tokens field).count t)).map (·.mul (p.weight field t))
  | .startOf field start =>
    if (d.tokens field).any (beginsWith · start) then some (Binary32.ofNat 1) else none
  | .phrase field terms =>
    if terms.isEmpty then none
    else
      (frequencyScore (countWindows terms (d.tokens field))).map
        (·.mul ((terms.map (p.weight field)).foldl Binary32.add Binary32.zero))
  | .boolean clauses minimum =>
    if clauses.isEmpty then none
    else
      (tally p d ⟨Binary32.zero, 0⟩ clauses).bind fun t =>
        if minimum ≤ t.matched then some t.total else none
  | query => frequencyScore (spans d query).length

/-- The tally of the clauses of a boolean query. -/
def tally (p : Partition) (d : StoredDocument) (t : Tally) : List (Occur × Query) → Option Tally
  | [] => some t
  | (occur, q) :: rest =>
    match t.add occur (score p d q) with
    | none => none
    | some t => tally p d t rest

end

/-! ### Reading -/

/-- How many documents match a query, and the best of them. -/
structure TopHits where
  total : Nat
  hits : List ScoreDoc
  deriving Repr

/-- The error for a partition to which nothing was ever added. -/
def notFound (p : Partition) : SearchError := .indexNotFound p.indexName p.groupingKey

/-- Whether a hit comes no later than another: by descending score, then by document. -/
def noLater (a b : ScoreDoc) : Bool :=
  b.score.orderKey < a.score.orderKey || (a.score.orderKey == b.score.orderKey && a.doc ≤ b.doc)

/-- The documents that match a query, in order of their numbers. -/
def matching (p : Partition) (query : Query) : List ScoreDoc :=
  p.live.filterMap fun (n, d) => (p.score d query).map fun s => ⟨s, UInt64.ofNat n, 0⟩

/-- The best hits, best first, of those that rank after a given one. -/
def search (p : Partition) (query : Query) (after : Option ScoreDoc) (count : Nat) :
    Except SearchError TopHits :=
  if p.documents.isEmpty then .error p.notFound
  else
    let all := p.matching query
    let later := all.filter fun hit => after.all hit.ranksAfter
    .ok ⟨all.length, (later.mergeSort noLater).take count⟩

/-- The fields that carry terms, in order. -/
def fieldNames (p : Partition) : Except SearchError (List String) :=
  if p.documents.isEmpty then .error p.notFound else .ok (p.postings.map (·.1))

/-- The terms of a field in order, with the number of documents that have each. -/
def terms (p : Partition) (field : String) : Except SearchError (List (String × Nat)) :=
  if p.documents.isEmpty then .error p.notFound
  else .ok (((Ordered.find? field p.postings).getD []).map fun (t, docs) => (t, docs.length))

/-- The primary key of a live document. -/
def primaryKey (p : Partition) (doc : UInt64) : Except SearchError Tuple :=
  match p.document? doc.toNat with
  | some d => .ok d.primaryKey
  | none => .error (.io ("no stored document " ++ toString doc.toNat ++ " in " ++ p.indexName))

end Partition

end ResumableQuery.Search
