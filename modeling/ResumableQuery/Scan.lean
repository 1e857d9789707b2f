/-!
# Scan properties and budgets

A scan request bounds how many rows are returned and how long the scan may take; limits of zero
are no limits.  A budget bounds how many stored records all sources of one execution read together.

Each cursor under limits has a clock of its own, which it looks at before every row but its first.
So a bound on time comes to a number of rows for each of these cursors (`TimeLimit`): those that it
has handed out when its clock first shows that the time has passed.
-/

namespace ResumableQuery

/-- The largest count that fits a machine word. -/
def maxCount : Nat := UInt64.size - 1

/-- A bound on the time of a scan, with what the clocks of the cursors show in the scan. -/
inductive TimeLimit where
  /-- Has passed whenever a cursor looks. -/
  | elapsed
  /-- Never passes. -/
  | ample
  /-- Passes for the cursor itself once it has handed out some rows, or never if there is no number.
  For the cursors that it reads from it is another limit each: `first` for the first of them, and
  `others` for those after the first in the same way. -/
  | passing (rows : Option Nat) (first others : TimeLimit)
  deriving DecidableEq, Repr

namespace TimeLimit

/-- How many rows a cursor has handed out when its clock first shows that the limit has passed. -/
def rows? : TimeLimit → Option Nat
  | elapsed => some 0
  | ample => none
  | passing rows _ _ => rows

/-- Whether a cursor that has handed out some rows finds that the limit has passed. -/
def hasPassed (t : TimeLimit) (returned : Nat) : Bool := t.rows?.any (· ≤ returned)

/-- The limit for the first cursor that is read from. -/
def first : TimeLimit → TimeLimit
  | elapsed => elapsed
  | ample => ample
  | passing _ first _ => first

/-- The limit for the cursors after the first that is read from. -/
def others : TimeLimit → TimeLimit
  | elapsed => elapsed
  | ample => ample
  | passing _ _ others => others

end TimeLimit

/-- What a single scan request asks for. -/
structure ScanProperties where
  /-- Rows to leave out at the beginning. -/
  skip : Nat
  /-- The most rows to return. -/
  limit : Option Nat
  /-- How long the scan may take. -/
  timeLimit : Option TimeLimit
  /-- The most records to read. -/
  scanLimit : Option Nat
  /-- Whether rows come in descending order. -/
  reverse : Bool
  deriving DecidableEq, Repr

namespace ScanProperties

/-- No limits, in ascending order. -/
def forward : ScanProperties := ⟨0, none, none, none, false⟩

/-- No limits, in descending order. -/
def backward : ScanProperties := { forward with reverse := true }

/-- A limit, where zero is none. -/
def limitOf (n : Nat) : Option Nat := if n = 0 then none else some n

/-- The request with a number of rows to leave out. -/
def withSkip (p : ScanProperties) (n : Nat) : ScanProperties := { p with skip := n }

/-- The request with a bound on returned rows. -/
def withLimit (p : ScanProperties) (n : Nat) : ScanProperties := { p with limit := limitOf n }

/-- The request with a bound on read records. -/
def withScanLimit (p : ScanProperties) (n : Nat) : ScanProperties :=
  { p with scanLimit := limitOf n }

/-- The request with a bound on time. -/
def withTimeLimit (p : ScanProperties) (t : Option TimeLimit) : ScanProperties :=
  { p with timeLimit := t }

/-- The request in a direction. -/
def withReverse (p : ScanProperties) (reverse : Bool) : ScanProperties :=
  { p with reverse := reverse }

/-- Whether the request bounds the rows that are returned. -/
def hasRowLimit (p : ScanProperties) : Bool := p.skip > 0 || p.limit.isSome

/-- The request without `skip` and `limit`, which belong to the outermost cursor only. -/
def clearSkipAndLimit (p : ScanProperties) : ScanProperties := { p with skip := 0, limit := none }

/-- The request as it comes to the first cursor that is read from. -/
def toFirst (p : ScanProperties) : ScanProperties :=
  { p with timeLimit := p.timeLimit.map (·.first) }

/-- The request as it comes to the cursors after the first that is read from. -/
def toOthers (p : ScanProperties) : ScanProperties :=
  { p with timeLimit := p.timeLimit.map (·.others) }

/-- Rows that a source must produce to satisfy the request. -/
def skipPlusLimit (p : ScanProperties) : Option Nat :=
  p.limit.map fun limit => min (limit + p.skip) maxCount

end ScanProperties

/-- How many records an execution may read and how many it has read. -/
structure Budget where
  limit : Option Nat
  scanned : Nat
  deriving DecidableEq, Repr

namespace Budget

/-- A budget from which nothing has been taken. -/
def new (limit : Option Nat) : Budget := ⟨limit, 0⟩

/-- Takes one record from the budget, unless it is spent. -/
def tryScan (b : Budget) : Option Budget :=
  match b.limit with
  | none => some { b with scanned := b.scanned + 1 }
  | some limit => if b.scanned < limit then some { b with scanned := b.scanned + 1 } else none

/-- Takes the first record that a source reads.  It passes even when the budget is spent, so that
every source gets at least one record further. -/
def scanFirst (b : Budget) : Budget := { b with scanned := b.scanned + 1 }

end Budget

end ResumableQuery
