import ResumableQuery.Cursor.Merge
import ResumableQuery.Plan.ComparisonKey
import ResumableQuery.RecordStore

/-!
# Plans

A plan says how rows are found: by scanning a range of primary keys, by filtering the rows of
another plan, or by merging the rows of several.  Executing a plan at a continuation opens a cursor;
limits apply to the rows of the whole plan, while the time limit and the budget reach every part of
it, and each part looks at a clock of its own.  The hash of a plan is that of its shape and marks
the continuations of its merges.
-/

namespace ResumableQuery

/-- How rows are found.  The legs of a merge are named by aliases. -/
inductive Plan where
  /-- The records of a range of primary keys. -/
  | scan (range : TupleRange) (reverse : Bool)
  /-- The rows of a plan whose key is a given one. -/
  | filter (child : Plan) (key : KeyExpression) (equals : Tuple)
  /-- The rows of several plans combined. -/
  | merge (operation : SetOperation) (legs : List (Alias × Plan)) (key : ComparisonKey)
    (reverse : Bool)
  /-- A union of a single plan that depends on an outer row and is run for each of those. -/
  | dynamic (name : Alias) (leg : Plan) (key : ComparisonKey) (reverse : Bool)
  deriving Repr

namespace Plan

mutual

/-- Hash of the shape of a plan; aliases do not count. -/
def hash : Plan → UInt64
  | scan range reverse => Digest.hash64 (Wire.text "scan" ++ range.toWire ++ Wire.truth reverse)
  | filter child key equals =>
    Digest.hash64
      (Wire.text "filter" ++ Wire.word64 child.hash.toNat ++ key.toWire ++ equals.toWire)
  | merge .union legs key reverse =>
    Digest.hash64 (Wire.text "union" ++ (Wire.word64 legs.length ++ legHashes legs) ++
      Wire.word64 key.hash.toNat ++ Wire.truth reverse ++ Wire.truth false)
  | merge .intersection legs key reverse =>
    Digest.hash64 (Wire.text "intersection" ++ (Wire.word64 legs.length ++ legHashes legs) ++
      Wire.word64 key.hash.toNat ++ Wire.truth reverse)
  | dynamic _ leg key reverse =>
    Digest.hash64 (Wire.text "union" ++ (Wire.word64 1 ++ Wire.word64 leg.hash.toNat) ++
      Wire.word64 key.hash.toNat ++ Wire.truth reverse ++ Wire.truth true)

/-- The hashes of legs one after the other. -/
def legHashes : List (Alias × Plan) → Bytes
  | [] => []
  | (_, leg) :: rest => Wire.word64 leg.hash.toNat ++ legHashes rest

end

/-- Whether rows come in descending order. -/
def isReverse : Plan → Bool
  | scan _ reverse => reverse
  | filter child _ _ => child.isReverse
  | merge _ _ _ reverse => reverse
  | dynamic _ _ _ reverse => reverse

/-- The plans that a plan is made of. -/
def children : Plan → List Plan
  | scan _ _ => []
  | filter child _ _ => [child]
  | merge _ legs _ _ => legs.map (·.2)
  | dynamic _ leg _ _ => [leg]

/-! ### Execution -/

/-- Where a plan is executed: over which records, with which records bound to aliases, on which
budget, and in which world its cursors are opened. -/
structure Execution where
  records : RecordStore
  bindings : Bindings
  budget : BudgetId
  world : World

/-- Whether the key of a row is a given one.  Where a row has no key it is not. -/
def keyIs (key : KeyExpression) (equals : Tuple) (row : Record) : Bool :=
  match key.evaluate row with
  | .ok t => t == equals
  | .error _ => false

/-- The merge that combines the rows of legs. -/
def merger (x : Execution) (operation : SetOperation) (key : ComparisonKey) (reverse : Bool)
    (planHash : UInt64) : Cursor.Merge Record :=
  ⟨operation, key.ofRow x.bindings, reverse, planHash⟩

mutual

/-- Opens the rows of a plan at a continuation, within the limits of a request. -/
def execute (x : Execution) : Plan → Continuation → ScanProperties →
    Except CursorError (Cursor Record)
  | scan range reverse, c, p => x.records.scan x.world range c (p.withReverse reverse) x.budget
  | filter child key equals, c, p => do
    let rows ← child.execute x c p.clearSkipAndLimit.toFirst
    return (rows.filter (keyIs key equals)).skipThenLimit p c
  | merge operation legs key reverse, c, p => do
    let m := merger x operation key reverse (merge operation legs key reverse).hash
    let rows ← m.openAt (openers x p.clearSkipAndLimit legs) c
    return rows.skipThenLimit p c
  | dynamic _ leg _ _, c, p => leg.execute x c p

/-- How the legs of a merge are opened. -/
def openers (x : Execution) (p : ScanProperties) :
    List (Alias × Plan) → List (Cursor.Merge.OpenLeg Record)
  | [] => []
  | (_, leg) :: rest => (fun c => leg.execute x c p.toFirst) :: openers x p.toOthers rest

end

end Plan

/-! ### Set operators -/

/-- A set operator of a plan: its operation, its legs by alias, what they are compared by, the
direction, and whether its leg is run for each of some outer rows instead of being merged. -/
structure SetPlan where
  operation : SetOperation
  dynamic : Bool
  legs : List (Alias × Plan)
  key : ComparisonKey
  reverse : Bool

namespace SetPlan

/-- The set operator at the root of a plan. -/
def ofPlan? : Plan → Option SetPlan
  | .merge operation legs key reverse => some ⟨operation, false, legs, key, reverse⟩
  | .dynamic name leg key reverse => some ⟨.union, true, [(name, leg)], key, reverse⟩
  | _ => none

/-- The plan of a set operator. -/
def toPlan (s : SetPlan) : Plan :=
  match s.dynamic, s.legs with
  | true, [(name, leg)] => .dynamic name leg s.key s.reverse
  | _, legs => .merge s.operation legs s.key s.reverse

/-- The aliases of the legs. -/
def aliases (s : SetPlan) : List Alias := s.legs.map (·.1)

/-- The operator over other legs, of which there must be as many. -/
def withLegs (s : SetPlan) (legs : List (Alias × Plan)) : Except CursorError SetPlan :=
  if legs.length ≠ s.legs.length then
    .error (((CursorError.argument (s.operation.name ++ " must keep its number of legs")).add
      "expected" (toString s.legs.length)).add "actual" (toString legs.length))
  else .ok { s with legs := legs }

/-- The key expressions that every leg must be able to evaluate. -/
def requiredFields (s : SetPlan) : List KeyExpression :=
  match s.key with
  | .onKey e => [e]
  | .onValue _ _ => []

/-- The values that every leg must be able to produce, in which `base` stands for its row. -/
def requiredValues (s : SetPlan) (base : Alias) (type : FieldType) : List Value :=
  match s.key with
  | .onKey e => Value.ofKeyExpressions [e] base type
  | .onValue own v => [v.rebase (AliasMap.ofPairs [(own, base)])]

end SetPlan

end ResumableQuery
