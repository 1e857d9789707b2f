/-!
# Search queries

A query asks for terms, prefixes and phrases in fields of a document.  Span queries yield ranges of
positions, which a nearness query puts in order; boolean queries combine others.
-/

namespace ResumableQuery.Search

/-- Whether a clause of a boolean query has to match. -/
inductive Occur where
  | must
  | should
  deriving DecidableEq, Repr

/-- A query over the fields of documents. -/
inductive Query where
  | term (field term : String)
  | startOf (field start : String)
  /-- Terms at consecutive positions. -/
  | phrase (field : String) (terms : List String)
  | spanTerm (field term : String)
  | spanStart (field start : String)
  /-- Spans of the clauses in order, with at most `slop` positions between them in total. -/
  | spanNear (field : String) (clauses : List Query) (slop : Nat)
  /-- The spans of a query as if they were of a field. -/
  | mask (query : Query) (field : String)
  | boolean (clauses : List (Occur × Query)) (minimum : Nat)
  deriving Repr, Inhabited

namespace Query

/-- The terms immediately followed by a word that begins with `start`, all in one field. -/
def phraseStart (field : String) (terms : List String) (start : String) : Query :=
  spanNear field (terms.map (spanTerm field) ++ [mask (spanStart field start) field]) 0

mutual

/-- The query as a reader sees it. -/
def display : Query → String
  | term field t => field ++ ":" ++ t
  | startOf field start => field ++ ":" ++ start ++ "*"
  | phrase field terms => field ++ ":\"" ++ " ".intercalate terms ++ "\""
  | spanTerm field t => field ++ ":" ++ t
  | spanStart field start => "SpanMultiTermQueryWrapper(" ++ field ++ ":" ++ start ++ "*)"
  | spanNear _ clauses slop =>
    "spanNear([" ++ ", ".intercalate (displayAll clauses) ++ "], " ++ toString slop ++ ", true)"
  | mask query field => "mask(" ++ query.display ++ ") as " ++ field
  | boolean clauses minimum =>
    "(" ++ " ".intercalate (displayClauses clauses) ++ ")" ++
      if minimum > 0 then "~" ++ toString minimum else ""

/-- Several queries as a reader sees them. -/
def displayAll : List Query → List String
  | [] => []
  | q :: rest => q.display :: displayAll rest

/-- The clauses of a boolean query as a reader sees them. -/
def displayClauses : List (Occur × Query) → List String
  | [] => []
  | (occur, q) :: rest => ((if occur = .must then "+" else "") ++ q.display) :: displayClauses rest

end

/-- In any of the fields, the terms occur as a phrase, the unfinished word last. -/
def anyPhrase (fields : List String) (terms : List String) (unfinished : Option String) : Query :=
  let inField (field : String) : Query :=
    match unfinished with
    | some start => phraseStart field terms start
    | none => phrase field terms
  boolean (fields.map fun field => (.should, inField field)) 1

/-- In any of the fields, every term occurs, and a word that begins with the unfinished one. -/
def allTerms (fields : List String) (terms : List String) (unfinished : Option String) : Query :=
  let inField (field : String) : Query :=
    boolean (terms.map (fun t => (.must, term field t)) ++
      (unfinished.map fun start => (.must, startOf field start)).toList) 0
  boolean (fields.map fun field => (.should, inField field)) 1

end Query

end ResumableQuery.Search
