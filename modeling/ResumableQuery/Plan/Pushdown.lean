import ResumableQuery.Error
import ResumableQuery.Expression.Value

/-!
# Pushdown

A value over the rows of a merge can be pushed down to a leg that is able to produce it from its own
rows.  The pushdown of a leg takes the value to one over the rows of the leg, which an alias of the
caller's choice stands for, or refuses.  Several legs must agree on what a value becomes.
-/

namespace ResumableQuery

/-- Takes a value to one in which `base` stands for the rows of a leg, unless the leg cannot produce
it. -/
abbrev Pushdown := Value → (base : Alias) → Option Value

/-- A leg that has some of the fields of the rows that `source` stands for, possibly under other
paths. -/
structure FieldPushdown where
  source : Alias
  /-- The path of each field in the leg, by its path in the source. -/
  paths : List (List String × List String)
  deriving Repr

namespace FieldPushdown

/-- The pushdown that has no fields. -/
def new (source : Alias) : FieldPushdown := ⟨source, []⟩

/-- The pushdown that also has the field at `path`, which is at `legPath` in the leg. -/
def withRenamed (t : FieldPushdown) (path legPath : List String) : FieldPushdown :=
  { t with paths := Ordered.insert path legPath t.paths }

/-- The pushdown that also has the field at `path`, which is at the same path in the leg. -/
def withField (t : FieldPushdown) (path : List String) : FieldPushdown :=
  t.withRenamed path path

/-- The field at a path of the record that `base` stands for.  Only the type of the last field is
known. -/
def chain (base : Alias) (type : FieldType) (path : List String) : Option Value :=
  path.getLast?.map fun last =>
    .field (path.dropLast.foldl (fun v name => .field v name .any) (.quantified base)) last type

/-- The value of a chain of fields in the leg.  A chain over another alias stays as it is. -/
def pushChain (t : FieldPushdown) (v : Value) (type : FieldType) (base : Alias) :
    Option Value :=
  match v.fieldPath? with
  | none => none
  | some (root, path) =>
    if root = t.source then (Ordered.find? path t.paths).bind (chain base type) else some v

mutual

/-- The value in the leg.  The record of the source as a whole is not available there. -/
def push (t : FieldPushdown) : Value → Alias → Option Value
  | .literal v, _ => some (.literal v)
  | .columns items, base => (t.pushItems items base).map .columns
  | .quantified name, _ => if name = t.source then none else some (.quantified name)
  | .field child name type, base => t.pushChain (.field child name type) type base

/-- Named columns in the leg. -/
def pushItems (t : FieldPushdown) :
    List (String × Value) → Alias → Option (List (String × Value))
  | [], _ => some []
  | (name, v) :: rest, base => do
    let first ← t.push v base
    let others ← t.pushItems rest base
    return (name, first) :: others

end

end FieldPushdown

namespace Pushdown

/-- A leg that has the same rows under another alias. -/
def rebasing (source : Alias) : Pushdown := fun v base => some (v.rebase [(source, base)])

/-- A leg that makes one and the same value of everything. -/
def constant (made : Value) : Pushdown := fun _ _ => some made

/-- A leg that makes of every value that value. -/
def identity : Pushdown := fun v _ => some v

/-- A leg that makes of every value its own row. -/
def ofRow : Pushdown := fun _ base => some (.quantified base)

/-- A leg that refuses everything. -/
def never : Pushdown := fun _ _ => none

/-- What all pushdowns agree on, given at least one.  Values that differ only in aliases that the
first one does not use are different. -/
def common (first : Pushdown) (others : List Pushdown) : Pushdown := fun v base => do
  let pushed ← first v base
  let names := AliasMap.identities pushed.aliases
  if others.all fun t => (t v base).any (pushed.semanticEq names) then return pushed else none

/-- The pushdown that refuses wherever some of the given ones refuse or differ. -/
def combine : List Pushdown → Except CursorError Pushdown
  | [] => .error (.argument "push_value_function needs at least one dependent function")
  | first :: others => .ok (common first others)

/-- Pushes a value to the legs among `candidates`, one after the other: the legs that do not refuse.
There is no answer if two of them differ; `pushed` is what an earlier leg made of the value. -/
def pushValue (v : Value) (base : Alias) :
    List (Pushdown × Alias) → (candidates : List Alias) → (pushed : Option Value) →
      Option (List Alias)
  | [], candidates, _ => some candidates
  | (t, leg) :: rest, candidates, pushed =>
    if Ordered.member leg candidates then
      match t v base, pushed with
      | none, _ => pushValue v base rest (Ordered.eraseKey leg candidates) pushed
      | some made, none => pushValue v base rest candidates (some made)
      | some made, some first =>
        if first.semanticEq (AliasMap.identities [base]) made then
          pushValue v base rest candidates pushed
        else none
    else pushValue v base rest candidates pushed

/-- The legs, in order, to which all of the values can be pushed; none if two legs differ on a
value. No other value may use `base`. -/
def pushValues (pushdowns : List Pushdown) (legs : List Alias) (values : List Value)
    (base : Alias) : Except CursorError (List Alias) :=
  if pushdowns.isEmpty || pushdowns.length != legs.length then
    .error (((CursorError.argument "one translate function per quantifier is required").add
      "functions" (toString pushdowns.length)).add "quantifiers" (toString legs.length))
  else
    let candidates := legs.foldl (fun found leg => Ordered.insertKey leg found) []
    let remaining := values.foldlM (fun candidates v =>
      pushValue v base (pushdowns.zip legs) candidates none) candidates
    .ok (remaining.getD [])

end Pushdown

end ResumableQuery
