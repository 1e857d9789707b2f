import ResumableQuery.Digest
import ResumableQuery.Expression.Alias
import ResumableQuery.Expression.FieldType
import ResumableQuery.Expression.Key

/-!
# Values

A value is an expression over the records that aliases stand for: such a record itself, a field of
one, a literal, or a list of named columns.  It evaluates to a flat tuple.  Values can be compared
and rebased up to a renaming of aliases, and their hash does not depend on aliases at all.
-/

namespace ResumableQuery

/-- An expression over bound records. -/
inductive Value where
  /-- The record that an alias stands for. -/
  | quantified (name : Alias)
  /-- A field of what another expression yields. -/
  | field (child : Value) (name : String) (type : FieldType)
  | literal (v : TupleValue)
  /-- Named columns. -/
  | columns (items : List (String × Value))
  deriving Repr, Inhabited

namespace Value

mutual

/-- Whether two values are the same. -/
def same : Value → Value → Bool
  | quantified a, quantified b => a == b
  | field a m s, field b n t => same a b && m == n && s == t
  | literal a, literal b => a == b
  | columns as, columns bs => sameItems as bs
  | _, _ => false

/-- Whether two lists hold the same columns. -/
def sameItems : List (String × Value) → List (String × Value) → Bool
  | [], [] => true
  | (m, a) :: as, (n, b) :: bs => m == n && same a b && sameItems as bs
  | _, _ => false

end

mutual

theorem same_iff (a b : Value) : a.same b = true ↔ a = b := by
  cases a with
  | field x m s => cases b <;> simp [same, same_iff x, and_assoc]
  | columns xs => cases b <;> simp [same, sameItems_iff xs]
  | _ => cases b <;> simp [same]

theorem sameItems_iff (a b : List (String × Value)) : sameItems a b = true ↔ a = b := by
  match a, b with
  | [], [] => simp [sameItems]
  | [], _ :: _ => simp [sameItems]
  | _ :: _, [] => simp [sameItems]
  | (m, x) :: xs, (n, y) :: ys =>
    simp [sameItems, same_iff x y, sameItems_iff xs ys]

end

instance : DecidableEq Value := fun a b => decidable_of_iff _ (same_iff a b)

mutual

/-- The value as a reader sees it. -/
def display : Value → String
  | quantified name => "$" ++ name
  | field child name _ => child.display ++ "." ++ name
  | literal v => v.display
  | columns items => "(" ++ ", ".intercalate (displayItems items) ++ ")"

/-- Named columns as a reader sees them. -/
def displayItems : List (String × Value) → List String
  | [] => []
  | (name, v) :: rest => (v.display ++ " as " ++ name) :: displayItems rest

end

/-- One chain of fields per column of each key expression, over the record of `base`.  Each field
has the type that the type before it gives it. -/
def ofKeyExpressions (expressions : List KeyExpression) (base : Alias) (type : FieldType) :
    List Value :=
  (expressions.flatMap KeyExpression.paths).map fun path =>
    (path.foldl (fun (chain : Value × FieldType) name =>
      let t := (chain.2.field? name).getD .any
      (chain.1.field name t, t)) (quantified base, type)).1

/-- Alias and field names of a chain of fields. -/
def fieldPath? : Value → Option (Alias × List String)
  | quantified name => some (name, [])
  | field child name _ => (child.fieldPath?).map fun (root, path) => (root, path ++ [name])
  | _ => none

mutual

/-- The aliases that the value refers to, added to `found` in order. -/
def aliasesInto (found : List Alias) : Value → List Alias
  | quantified name => Ordered.insertKey name found
  | field child _ _ => child.aliasesInto found
  | literal _ => found
  | columns items => itemAliasesInto found items

/-- The aliases that named columns refer to, added to `found` in order. -/
def itemAliasesInto (found : List Alias) : List (String × Value) → List Alias
  | [] => found
  | (_, v) :: rest => itemAliasesInto (v.aliasesInto found) rest

end

/-- The aliases that the value refers to, each once and in order. -/
def aliases (v : Value) : List Alias := v.aliasesInto []

mutual

/-- Whether two values are the same once the aliases of the first are renamed. -/
def semanticEq (aliasMap : AliasMap) : Value → Value → Bool
  | quantified a, quantified b =>
    match aliasMap.target? a with
    | some target => target == b
    | none => a == b
  | field a m s, field b n t => m == n && s == t && semanticEq aliasMap a b
  | literal a, literal b => a == b
  | columns as, columns bs => semanticEqItems aliasMap as bs
  | _, _ => false

/-- Whether two lists hold the same columns once the aliases of the first are renamed. -/
def semanticEqItems (aliasMap : AliasMap) :
    List (String × Value) → List (String × Value) → Bool
  | [], [] => true
  | (m, a) :: as, (n, b) :: bs =>
    m == n && semanticEq aliasMap a b && semanticEqItems aliasMap as bs
  | _, _ => false

end

mutual

/-- The value with its aliases replaced. -/
def mapAliases (f : Alias → Alias) : Value → Value
  | quantified name => quantified (f name)
  | field child name type => field (child.mapAliases f) name type
  | literal v => literal v
  | columns items => columns (mapItemAliases f items)

/-- Named columns with their aliases replaced. -/
def mapItemAliases (f : Alias → Alias) : List (String × Value) → List (String × Value)
  | [] => []
  | (name, v) :: rest => (name, v.mapAliases f) :: mapItemAliases f rest

end

/-- The value with its aliases renamed. -/
def rebase (v : Value) (aliasMap : AliasMap) : Value := v.mapAliases aliasMap.apply

/-! ### Evaluation -/

/-- What a chain of fields leads to. -/
inductive Resolved where
  | record (r : Record)
  | field (f : FieldValue)
  | missing

/-- What a chain of fields leads to; a field of something missing is itself missing. -/
def resolve (bindings : Bindings) : Value → Except EvaluationError Resolved
  | quantified name =>
    match bindings.record? name with
    | some r => .ok (.record r)
    | none => .error (.unboundAlias name)
  | field child name _ => do
    let found (fields : Fields) : Resolved :=
      match Ordered.find? name fields with
      | some f => .field f
      | none => .missing
    match ← child.resolve bindings with
    | .record r => return found r.fields
    | .field (.message fields) => return found fields
    | .field (.repeated _) => .error (.repeatedField child.display)
    | .field (.scalar _) => .error (.notAMessage child.display)
    | .missing => return .missing
  | v => .error (.notAMessage v.display)

/-- The single element that a resolved chain yields; `text` describes the chain in errors. -/
def Resolved.element (text : String) : Resolved → Except EvaluationError TupleValue
  | field (.scalar v) => .ok v
  | missing => .ok .null
  | field (.repeated _) => .error (.repeatedField text)
  | field (.message _) => .error (.notAScalar text)
  | record _ => .error (.notAScalar text)

mutual

/-- The tuple that a value yields: one element for a literal or a field, and the elements of all
columns one after the other. -/
def eval (bindings : Bindings) : Value → Except EvaluationError Tuple
  | literal v => .ok [v]
  | columns items => evalItems bindings items
  | quantified name => do
    let found ← (quantified name).resolve bindings
    return [← found.element (quantified name).display]
  | field child name type => do
    let found ← (field child name type).resolve bindings
    return [← found.element (field child name type).display]

/-- The elements of named columns, one column after the other. -/
def evalItems (bindings : Bindings) : List (String × Value) → Except EvaluationError Tuple
  | [] => .ok []
  | (_, v) :: rest => do
    let first ← v.eval bindings
    let others ← evalItems bindings rest
    return first ++ others

end

/-! ### Wire format and hash -/

mutual

/-- The wire form. -/
def toWire : Value → Bytes
  | quantified name => Wire.word32 0 ++ Wire.text name
  | field child name type => Wire.word32 1 ++ child.toWire ++ Wire.text name ++ type.toWire
  | literal v => Wire.word32 2 ++ v.toWire
  | columns items => Wire.word32 3 ++ (Wire.word64 items.length ++ itemsToWire items)

/-- The wire form of named columns. -/
def itemsToWire : List (String × Value) → Bytes
  | [] => []
  | (name, v) :: rest => Wire.text name ++ v.toWire ++ itemsToWire rest

end

/-- Reads a name and the value under it. -/
def readNamed (read : Wire.Reader Value) : Wire.Reader (String × Value) := do
  return (← Wire.readText, ← read)

/-- Reads a value whose nesting is less deep than `depth`. -/
def readNested : (depth : Nat) → Wire.Reader Value
  | 0 => Wire.fail .endOfInput
  | depth + 1 => do
    match ← Wire.readVariant 4 with
    | 0 => return quantified (← Wire.readText)
    | 1 => return field (← readNested depth) (← Wire.readText) (← FieldType.ofWire)
    | 2 => return literal (← TupleValue.ofWire)
    | _ => return columns (← Wire.readList (readNamed (readNested depth)))

/-- Reads a value. -/
def ofWire : Wire.Reader Value := fun b => readNested (b.length + 1) b

/-- The alias that stands for every alias in a hash. -/
def placeholder : Alias := "_"

/-- Hash of the value's shape, in which all aliases are alike. -/
def hash (v : Value) : UInt64 :=
  Digest.hash64 (Wire.text "value" ++ (v.mapAliases fun _ => placeholder).toWire)

end Value

end ResumableQuery
