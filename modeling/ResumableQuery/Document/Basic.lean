import ResumableQuery.Numeric.Literal
import ResumableQuery.Text.Quoted

/-!
# Documents

Settings are given as structured documents.  A message about a document says what it is.
-/

namespace ResumableQuery

/-- A structured document that settings are read from. -/
inductive Document where
  | null
  | bool (b : Bool)
  | int (i : Int)
  | float (x : Binary64)
  | text (s : String)
  | list (items : List Document)
  | object (entries : List (String × Document))
  deriving Inhabited

namespace Document

/-- The number that a literal stands for. -/
def ofLiteral (l : NumberLiteral) : Document :=
  match l.toInt? with
  | some i => int i
  | none => float l.toBinary64

/-- The member of a name of an object, or the null document. -/
def member : Document → (name : String) → Document
  | object entries, name => (entries.lookup name).getD null
  | _, _ => null

/-- What a document is, as messages describe it. -/
def describe : Document → String
  | null => "null"
  | bool b => "boolean `" ++ (if b then "true" else "false") ++ "`"
  | int i => "integer `" ++ toString i ++ "`"
  | float x => "floating point `" ++ x.scientificText ++ "`"
  | text s => "string " ++ Text.quoted s
  | list _ => "sequence"
  | object _ => "map"

end Document

end ResumableQuery
