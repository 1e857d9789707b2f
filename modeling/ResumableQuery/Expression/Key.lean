import ResumableQuery.Record

/-!
# Key expressions

A key expression names fields of a record and yields the tuple of their values.  A missing field
counts as null; a field on the way must hold a message and the last one a single value.
-/

namespace ResumableQuery

/-- Why an expression has no value. -/
inductive EvaluationError where
  | unboundAlias (name : String)
  | repeatedField (field : String)
  | notAMessage (field : String)
  | notAScalar (expression : String)
  deriving DecidableEq, Repr

/-- Name of the kind of an evaluation error. -/
def EvaluationError.kind : EvaluationError → String
  | .unboundAlias _ => "UnboundAlias"
  | .repeatedField _ => "RepeatedField"
  | .notAMessage _ => "NotAMessage"
  | .notAScalar _ => "NotAScalar"

/-- Wording of an evaluation error. -/
def EvaluationError.message : EvaluationError → String
  | .unboundAlias name => s!"alias {name} is not bound"
  | .repeatedField name => s!"field {name} is repeated and cannot be evaluated as a single value"
  | .notAMessage name => s!"field {name} is not a nested message"
  | .notAScalar text => s!"{text} does not evaluate to a scalar"

/-- An expression over the fields of a record. -/
inductive KeyExpression where
  /-- No columns. -/
  | empty
  /-- The value of a field. -/
  | field (name : String)
  /-- An expression over the message in a field. -/
  | nest (parent : String) (child : KeyExpression)
  /-- The columns of several expressions. -/
  | concat (children : List KeyExpression)
  deriving Repr, Inhabited

namespace KeyExpression

mutual

/-- Whether two expressions are the same. -/
def same : KeyExpression → KeyExpression → Bool
  | empty, empty => true
  | field a, field b => a == b
  | nest p a, nest q b => p == q && same a b
  | concat as, concat bs => sameAll as bs
  | _, _ => false

/-- Whether two lists hold the same expressions. -/
def sameAll : List KeyExpression → List KeyExpression → Bool
  | [], [] => true
  | a :: as, b :: bs => same a b && sameAll as bs
  | _, _ => false

end

mutual

theorem same_iff (a b : KeyExpression) : a.same b = true ↔ a = b := by
  cases a with
  | nest p x => cases b <;> simp [same, same_iff x]
  | concat xs => cases b <;> simp [same, sameAll_iff xs]
  | _ => cases b <;> simp [same]

theorem sameAll_iff (a b : List KeyExpression) : sameAll a b = true ↔ a = b := by
  cases a with
  | nil => cases b <;> simp [sameAll]
  | cons x xs => cases b with
    | nil => simp [sameAll]
    | cons y ys => simp [sameAll, same_iff x y, sameAll_iff xs ys]

end

instance : DecidableEq KeyExpression := fun a b => decidable_of_iff _ (same_iff a b)

mutual

/-- Number of elements of the tuple that the expression yields. -/
def columns : KeyExpression → Nat
  | empty => 0
  | field _ => 1
  | nest _ child => child.columns
  | concat children => columnsAll children

/-- Number of elements that several expressions yield together. -/
def columnsAll : List KeyExpression → Nat
  | [] => 0
  | e :: rest => e.columns + columnsAll rest

end

mutual

/-- The field paths that the expression reads, in column order. -/
def paths : KeyExpression → List (List String)
  | empty => []
  | field name => [[name]]
  | nest parent child => child.paths.map (parent :: ·)
  | concat children => pathsAll children

/-- The field paths that several expressions read. -/
def pathsAll : List KeyExpression → List (List String)
  | [] => []
  | e :: rest => e.paths ++ pathsAll rest

end

mutual

/-- The columns of the expression over some fields, or over none where a message is missing. -/
def evaluateIn (fields : Option Fields) : KeyExpression → Except EvaluationError Tuple
  | empty => .ok []
  | field name =>
    match fields.bind (Ordered.find? name) with
    | none => .ok [.null]
    | some (.scalar v) => .ok [v]
    | some (.message _) => .error (.notAScalar name)
    | some (.repeated _) => .error (.repeatedField name)
  | nest parent child =>
    match fields.bind (Ordered.find? parent) with
    | none => child.evaluateIn none
    | some (.message nested) => child.evaluateIn (some nested)
    | some (.scalar _) => .error (.notAMessage parent)
    | some (.repeated _) => .error (.repeatedField parent)
  | concat children => evaluateAllIn fields children

/-- The columns of several expressions. -/
def evaluateAllIn (fields : Option Fields) : List KeyExpression → Except EvaluationError Tuple
  | [] => .ok []
  | e :: rest => do
    let first ← e.evaluateIn fields
    let others ← evaluateAllIn fields rest
    return first ++ others

end

/-- The tuple that the expression yields for a record. -/
def evaluate (e : KeyExpression) (r : Record) : Except EvaluationError Tuple :=
  e.evaluateIn (some r.fields)

mutual

/-- The expression as a reader sees it. -/
def display : KeyExpression → String
  | empty => "empty"
  | field name => name
  | nest parent child => parent ++ "." ++ child.display
  | concat children => "(" ++ ", ".intercalate (displayAll children) ++ ")"

/-- Several expressions as a reader sees them. -/
def displayAll : List KeyExpression → List String
  | [] => []
  | e :: rest => e.display :: displayAll rest

end

mutual

/-- The wire form. -/
def toWire : KeyExpression → Bytes
  | empty => Wire.word32 0
  | field name => Wire.word32 1 ++ Wire.text name
  | nest parent child => Wire.word32 2 ++ Wire.text parent ++ child.toWire
  | concat children => Wire.word32 3 ++ (Wire.word64 children.length ++ allToWire children)

/-- The wire forms of several expressions. -/
def allToWire : List KeyExpression → Bytes
  | [] => []
  | e :: rest => e.toWire ++ allToWire rest

end

/-- Reads an expression whose nesting is less deep than `depth`. -/
def readNested : (depth : Nat) → Wire.Reader KeyExpression
  | 0 => Wire.fail .endOfInput
  | depth + 1 => do
    match ← Wire.readVariant 4 with
    | 0 => return empty
    | 1 => return field (← Wire.readText)
    | 2 => return nest (← Wire.readText) (← readNested depth)
    | _ => return concat (← Wire.readList (readNested depth))

/-- Reads an expression. -/
def ofWire : Wire.Reader KeyExpression := fun b => readNested (b.length + 1) b

end KeyExpression

end ResumableQuery
