import ResumableQuery.Expression.Key

/-!
# Index definitions

A search index covers text fields of one type of record and keeps a partition for each value of its
grouping expression.
-/

namespace ResumableQuery.Search

/-- The definition of a full-text index. -/
structure IndexDefinition where
  name : String
  recordType : String
  /-- Dotted paths of the indexed fields. -/
  textFields : List String
  grouping : KeyExpression
  autoComplete : Bool
  deriving Repr

/-- One indexed value of a record. -/
structure DocumentField where
  name : String
  value : TupleValue
  deriving DecidableEq, Repr

namespace DocumentField

/-- The text of a field that holds one. -/
def text? (f : DocumentField) : Option String := f.value.asText

end DocumentField

/-- The parts of a dotted path; there is always at least one. -/
def pathParts : List Char → List (List Char)
  | [] => [[]]
  | c :: rest =>
    if c = '.' then [] :: pathParts rest
    else
      match pathParts rest with
      | [] => [[c]]
      | part :: parts => (c :: part) :: parts

mutual

/-- The values at the end of a path that goes on with `path` from a field.  A list contributes all
of its members, and null contributes nothing. -/
def valuesAt (path : List String) : FieldValue → List TupleValue
  | .scalar v => if path.isEmpty && !v.isNull then [v] else []
  | .message fields =>
    match path with
    | [] => []
    | name :: rest => valuesIn name rest fields
  | .repeated items => valuesOfAll path items

/-- The values at the end of a path through a named field of a message. -/
def valuesIn (name : String) (path : List String) : List (String × FieldValue) → List TupleValue
  | [] => []
  | (n, f) :: rest => if n = name then valuesAt path f else valuesIn name path rest

/-- The values at the end of a path from each of several fields. -/
def valuesOfAll (path : List String) : List FieldValue → List TupleValue
  | [] => []
  | f :: rest => valuesAt path f ++ valuesOfAll path rest

end

namespace IndexDefinition

/-- Whether the index covers a record. -/
def covers (i : IndexDefinition) (r : Record) : Bool := r.recordType == i.recordType

/-- The indexed values of a record at a dotted path. -/
def fieldsAt (r : Record) (path : String) : List DocumentField :=
  (valuesAt ((pathParts path.toList).map String.ofList) (.message r.fields)).map (⟨path, ·⟩)

/-- The indexed values of a record, in declared order, with the key of their partition; none if the
index does not cover the record. -/
def documentFields (i : IndexDefinition) (r : Record) :
    Except EvaluationError (Option (Tuple × List DocumentField)) := do
  if i.covers r then
    let groupingKey ← i.grouping.evaluate r
    return some (groupingKey, i.textFields.flatMap (fieldsAt r))
  else return none

end IndexDefinition

end ResumableQuery.Search
