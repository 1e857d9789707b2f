import ResumableQuery.Cursor.Adapter
import ResumableQuery.IndexEntry
import ResumableQuery.Search.Index

/-!
# Scored hits

The documents that match a query, best first, are read from their partition a page at a time.  The
continuation after a hit is the hit itself: what ranks after it comes next, whatever was indexed in
the meantime.  A partition that was never written has no hits.
-/

namespace ResumableQuery.Search

/-- A search for the documents of a partition that match a query. -/
structure HitScan where
  index : Index
  query : Query
  groupingKey : Tuple

namespace HitScan

/-- How many hits are read at a time. -/
def pageSize (s : HitScan) : Nat := max 1 s.index.records.config.searchPageSize

/-- A failure of the search engine. -/
def failure (s : HitScan) (e : SearchError) : CursorError :=
  ((CursorError.ofCause (.search e)).add "index_name" s.index.name).add "query" s.query.display

/-- The entry of a hit: the keys of its partition and record, and its score. -/
def entry (s : HitScan) (hit : ScoreDoc) (primaryKey : Tuple) : IndexEntry :=
  ⟨s.index.name, s.groupingKey ++ primaryKey, [.float hit.score.widen], some primaryKey⟩

/-- The entries of the hits of a page, and then the rest. -/
def page (s : HitScan) (reader : Reader) (rest : Unit → Cursor IndexEntry) :
    List ScoreDoc → Cursor IndexEntry
  | [] => rest ()
  | hit :: hits => .consult fun w =>
    match reader.primaryKey w.directory hit.doc with
    | .ok primaryKey =>
      .row (s.entry hit primaryKey) hit.toContinuation fun _ => s.page reader rest hits
    | .error e => .fail (s.failure e)

/-- The entries of at most `count` pages of hits that rank after a given one. -/
def pages (s : HitScan) (reader : Reader) : (count : Nat) → (after : Option ScoreDoc) →
    Cursor IndexEntry
  | 0, _ => .exhausted
  | count + 1, after => .consult fun w =>
    match reader.search w.directory s.query after s.pageSize with
    | .ok top =>
      s.page reader (fun _ =>
        if top.hits.length < s.pageSize then .exhausted
        else s.pages reader count (top.hits.getLast?.or after)) top.hits
    | .error (.indexNotFound _ _) => .exhausted
    | .error e => .fail (s.failure e)

/-- How many pages a search reads at most: more than there are documents when it begins, by more
than can be added while it goes on. -/
def mostPages (s : HitScan) (w : World) : Nat :=
  (w.directory.partition (s.index.place s.groupingKey)).liveCount + UInt64.size

/-- The entries of all hits that rank after a given one. -/
def rows (s : HitScan) (after : Option ScoreDoc) : Cursor IndexEntry :=
  .consult fun w =>
    match w.directory.reader (s.index.place s.groupingKey) with
    | .ok reader => s.pages reader (s.mostPages w) after
    | .error (.indexNotFound _ _) => .exhausted
    | .error e => .fail (s.failure e)

/-- Opens the search at a continuation. -/
def openAt (s : HitScan) (c : Continuation) : Except CursorError (Cursor IndexEntry) :=
  match c with
  | .done => .ok .exhausted
  | c =>
    match c.position ScoreDoc.ofWire with
    | .ok after => .ok (s.rows after)
    | .error e => .error (.badContinuation e)

end HitScan

end ResumableQuery.Search
