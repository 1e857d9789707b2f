import ResumableQuery.Search.Completion
import ResumableQuery.Search.Hits
import ResumableQuery.Search.Spelling

/-!
# Scans of a search index

A search index answers queries, completes what was typed and suggests spellings.  It is not ordered
by value, so it has no plain range scan.  Only a query can be resumed.
-/

namespace ResumableQuery.Search

/-- What a scan of an index looks for, in the partition of a grouping key. -/
inductive ScanBounds where
  | plain (range : TupleRange)
  | query (query : Query) (groupingKey : Tuple)
  | autoComplete (phrase : String) (groupingKey : Tuple) (highlight : Bool)
  | spellCheck (word : String) (fields : List String) (groupingKey : Tuple)

namespace Index

/-- A scan that the index does not support. -/
def refusal (i : Index) (reason : String) : CursorError :=
  (CursorError.argument reason).add "index_name" i.name

/-- Opens a scan at a continuation, within the limits of a request. -/
def scan (i : Index) (bounds : ScanBounds) (c : Continuation) (p : ScanProperties) :
    Except CursorError (Cursor IndexEntry) := do
  match bounds with
  | .plain _ =>
    throw ((i.refusal "unsupported scan type for search index").add "scan_type" "by_value")
  | .query query groupingKey =>
    let hits ← (HitScan.mk i query groupingKey).openAt c
    return hits.skipThenLimit p c
  | .autoComplete phrase groupingKey highlight =>
    if !i.definition.autoComplete then
      throw (i.refusal "auto-complete unsupported due to not enabled on index")
    else if !c.isStart then
      throw (i.refusal "auto-complete does not support scanning with continuation")
    else return (← Completion.new i phrase groupingKey highlight p).rows
  | .spellCheck word fields groupingKey =>
    if !c.isStart then
      throw (i.refusal "spell-check does not support scanning with continuation")
    else return (← Spelling.new i word fields groupingKey p).rows

end Index

end ResumableQuery.Search
