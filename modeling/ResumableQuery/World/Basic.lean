import ResumableQuery.Config
import ResumableQuery.Scan
import ResumableQuery.World.Task

/-!
# The world of a cursor

While a cursor is open the stores and search indexes it reads may change, cursors of one execution
draw on a common budget, and tasks go on beside them.  All of that is kept in one value, which a
cursor consults whenever it is asked for a row.
-/

namespace ResumableQuery

/-- Number of a budget. -/
abbrev BudgetId := Nat

/-- Everything that cursors consult and change. -/
structure World where
  stores : List (StoreName × Store)
  /-- How many further calls of a store succeed; none if no call fails. -/
  callsLeft : Option Nat
  budgets : List Budget
  /-- Tasks under way, in the order in which they get their turns. -/
  tasks : List Task
  /-- Tasks that ended and were not collected, in the order of their ends, with what they found. -/
  ended : List (TaskId × Option Found)
  /-- Number of the next task. -/
  nextTask : TaskId
  directory : Search.Directory

namespace World

/-- A world without stores, in which nothing fails. -/
def empty : World := ⟨[], none, [], [], [], 0, []⟩

/-- The store of a name; one that was never written is empty. -/
def store (w : World) (name : StoreName) : Store := (Ordered.find? name w.stores).getD []

/-- The world with a store replaced. -/
def setStore (w : World) (name : StoreName) (s : Store) : World :=
  { w with stores := Ordered.insert name s w.stores }

/-- Makes a call of a store: the world in which it is made, unless the call fails. -/
def call (w : World) : Except StoreError World :=
  match w.callsLeft with
  | none => .ok w
  | some 0 => .error (.backend "disk on fire")
  | some (n + 1) => .ok { w with callsLeft := some n }

/-- Reads the value of a key. -/
def get (w : World) (name : StoreName) (key : Bytes) : World × Except StoreError (Option Bytes) :=
  match w.call with
  | .ok w => (w, .ok ((w.store name).get? key))
  | .error e => (w, .error e)

/-- Reads at most `limit` pairs of an interval. -/
def scan (w : World) (name : StoreName) (r : KeyRange) (reverse : Bool) (limit : Nat) :
    World × Except StoreError (List (Bytes × Bytes)) :=
  match w.call with
  | .ok w => (w, .ok ((w.store name).scan r reverse limit))
  | .error e => (w, .error e)

/-- Gives a key a value. -/
def set (w : World) (name : StoreName) (key value : Bytes) : World × Except StoreError Unit :=
  match w.call with
  | .ok w => (w.setStore name ((w.store name).set key value), .ok ())
  | .error e => (w, .error e)

/-- Takes the value of a key away; whether it had one. -/
def clear (w : World) (name : StoreName) (key : Bytes) : World × Except StoreError Bool :=
  match w.call with
  | .ok w =>
    (w.setStore name ((w.store name).clear key), .ok ((w.store name).get? key).isSome)
  | .error e => (w, .error e)

/-- The budget of a number; one that was never made is unlimited. -/
def budget (w : World) (id : BudgetId) : Budget := (w.budgets[id]?).getD (Budget.new none)

/-- The world with a budget replaced. -/
def setBudget (w : World) (id : BudgetId) (b : Budget) : World :=
  { w with budgets := w.budgets.set id b }

/-- The world with one more budget, and its number. -/
def newBudget (w : World) (limit : Option Nat) : World × BudgetId :=
  ({ w with budgets := w.budgets ++ [Budget.new limit] }, w.budgets.length)

end World

end ResumableQuery
