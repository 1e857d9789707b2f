import ResumableQuery.Cursor.Adapter
import ResumableQuery.Cursor.FlatMap
import ResumableQuery.Cursor.Merge
import ResumableQuery.Cursor.Source
import ResumableQuery.Expression.Alias

/-!
# Recipes

A recipe says how a cursor over tuple elements is put together from sources, adapters, pipelines,
nested iterations and merges.  All parts of it are opened at one continuation.  Applications in a
pipeline take a number of turns that depends on the element, so that later ones may finish first.
-/

namespace ResumableQuery.Session

/-- A failure that a recipe calls for. -/
inductive Fault where
  | argument (reason : String)
  | backend (reason : String)
  | unbound (name : Alias)
  deriving DecidableEq, Repr

namespace Fault

/-- The error of the failure. -/
def error : Fault → CursorError
  | argument reason => .argument reason
  | backend reason => .ofCause (.store (.backend reason))
  | unbound name => .ofCause (.evaluation (.unboundAlias name))

end Fault

/-- A function on elements. -/
inductive Transform where
  /-- Adds to an integer; other elements stay. -/
  | add (n : Int64)
  /-- Puts the element behind another. -/
  | wrap (first : TupleValue)
  /-- The element as a reader sees it. -/
  | display
  /-- Fails on one element. -/
  | failOn (v : TupleValue) (fault : Fault)
  /-- One function after the other. -/
  | chain (steps : List Transform)

mutual

/-- Applies a function. -/
def Transform.apply : Transform → TupleValue → Except CursorError TupleValue
  | .add n, .int i => .ok (.int (i + n))
  | .add _, v => .ok v
  | .wrap first, v => .ok (.nested [first, v])
  | .display, v => .ok (.text v.display)
  | .failOn x fault, v => if v = x then .error fault.error else .ok v
  | .chain steps, v => Transform.applyAll steps v

/-- Applies functions one after the other. -/
def Transform.applyAll : List Transform → TupleValue → Except CursorError TupleValue
  | [], v => .ok v
  | t :: rest, v => do applyAll rest (← t.apply v)

end

/-- A predicate on elements. -/
inductive Test where
  /-- An even integer. -/
  | even
  | lessThan (v : TupleValue)
  | not (t : Test)
  | always (answer : Bool)

namespace Test

/-- Whether an element satisfies a predicate. -/
def holds : Test → TupleValue → Bool
  | even, v => v.asInt.any fun i => i.toInt % 2 == 0
  | lessThan x, v => (compare v x).isLT
  | not t, v => !t.holds v
  | always answer, _ => answer

end Test

/-- By what elements are compared.  An element that it does not fit is its own key. -/
inductive ElementKey where
  | self
  /-- An element of a nested tuple. -/
  | element (index : Nat)
  /-- The remainder of an integer. -/
  | remainder (divisor : Int64)
  /-- Fails on one element. -/
  | failOn (v : TupleValue) (fault : Fault)

namespace ElementKey

/-- The key of an element. -/
def ofElement : ElementKey → TupleValue → Except CursorError Tuple
  | self, v => .ok [v]
  | element index, .nested t => .ok [(t[index]?).getD .null]
  | remainder divisor, .int i => .ok [.int (Int64.ofInt (i.toInt % divisor.toInt))]
  | failOn x fault, v => if v = x then .error fault.error else .ok [v]
  | _, v => .ok [v]

end ElementKey

/-- How a cursor over elements is put together. -/
inductive Recipe where
  | list (items : List TupleValue)
  /-- A list from its beginning, whatever the continuation. -/
  | fixed (items : List TupleValue)
  | empty
  /-- A list that is there a turn later, or fails then. -/
  | future (items : Except Fault (List TupleValue))
  /-- Cannot be opened. -/
  | broken (fault : Fault)
  /-- The pairs of a key range of the store. -/
  | pairs (range : KeyRange) (reverse : Bool) (batch : Nat)
  | map (f : Transform) (source : Recipe)
  | tryMap (f : Transform) (source : Recipe)
  | filter (keep : Test) (source : Recipe)
  | limited (p : ScanProperties) (source : Recipe)
  /-- Gives every row and the end one and the same position. -/
  | positioned (payload : Bytes) (source : Recipe)
  /-- Puts every row into a tuple, and turns every end into that of a source that ran dry. -/
  | boxed (source : Recipe)
  | pipelined (f : Transform) (depth : Nat) (source : Recipe)
  /-- For each element of the outer cursor the cursor listed for it last, or an empty one. -/
  | flatMap (outer : Recipe) (inner : List (TupleValue × Recipe)) (depth : Nat) (check : Bool)
  | merge (operation : SetOperation) (legs : List Recipe) (key : ElementKey) (reverse : Bool)
    (planHash : UInt64)

/-- How many turns an application to an element takes.  Elements other than integers count as
three. -/
def turns (v : TupleValue) : Nat := 7 - ((v.asInt.getD 3).toInt % 7).toNat

/-- The store that recipes read, and the budget they draw on. -/
structure Site where
  store : StoreName
  budget : BudgetId

/-- How a cursor is opened in a world. -/
abbrev Opener := World → Cursor.Merge.OpenLeg TupleValue

/-- How a cursor is opened for an element: the last of the openers listed under its packed form. -/
def openerOf (openers : List (Bytes × Opener)) (v : TupleValue) : Opener :=
  match openers.reverse.lookup (Tuple.pack [v]) with
  | some opener => opener
  | none => fun _ _ => .ok .empty

/-- Applications of a function that take their turns. -/
def job (f : Transform) (v : TupleValue) : Cursor.Job TupleValue :=
  .compute (turns v) fun _ => f.apply v

/-- The nested iteration over cursors listed by element. -/
def nesting (openers : List (Bytes × Opener)) (depth : Nat) (check : Bool) :
    Cursor.Nesting TupleValue TupleValue where
  openInner v c := .compute (turns v) fun w => openerOf openers v w c
  check := if check then some fun v => Tuple.pack [v] else none
  depth := depth

namespace Recipe

mutual

/-- Opens the cursor of a recipe at a continuation. -/
def openAt (x : Site) : Recipe → Opener
  | list items, _, c => Cursor.list items c
  | fixed items, _, _ => .ok (Cursor.ofList items)
  | empty, _, _ => .ok .empty
  | future items, _, c => .ok (Cursor.future (items.mapError Fault.error) c)
  | broken fault, _, _ => .error fault.error
  | pairs range reverse batch, w, c => do
    let found ← (Cursor.KeyScan.mk x.store range reverse batch x.budget).openAt w c
    return found.map fun (key, value) => .nested [.bytes key, .bytes value]
  | map f source, w, c => do
    return (← source.openAt x w c).map fun v => (f.apply v).toOption.getD v
  | tryMap f source, w, c => do return (← source.openAt x w c).tryMap f.apply
  | filter keep source, w, c => do return (← source.openAt x w c).filter keep.holds
  | limited p source, w, c => do return (← source.openAt x w c).skipThenLimit p c
  | positioned payload source, w, c => do
    return (← source.openAt x w c).mapResult (fun v _ => (v, .resume payload))
      (fun r _ => (r, .resume payload))
  | boxed source, w, c => do
    return (← source.openAt x w c).mapResult (fun v t => (.nested [v], t))
      (fun _ _ => (.sourceExhausted, .done))
  | pipelined f depth source, w, c => do
    return (← source.openAt x w c).pipelined (job f) depth
  | flatMap outer inner depth check, w, c =>
    (nesting (openersOf x inner) depth check).openAt (fun c => outer.openAt x w c) c
  | merge operation legs key reverse planHash, w, c =>
    (Cursor.Merge.mk operation key.ofElement reverse planHash).openAt (legOpeners x legs w) c

/-- How cursors are opened by element. -/
def openersOf (x : Site) : List (TupleValue × Recipe) → List (Bytes × Opener)
  | [] => []
  | (v, r) :: rest => (Tuple.pack [v], r.openAt x) :: openersOf x rest

/-- How the legs of a merge are opened. -/
def legOpeners (x : Site) : List Recipe → World → List (Cursor.Merge.OpenLeg TupleValue)
  | [], _ => []
  | r :: rest, w => (fun c => r.openAt x w c) :: legOpeners x rest w

end

end Recipe

end ResumableQuery.Session
