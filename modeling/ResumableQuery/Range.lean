import ResumableQuery.Tuple.Packing

/-!
# Ranges

A range of tuples has two endpoints.  Endpoints are prefix-aware: an inclusive upper end takes in
every tuple that begins with it, an exclusive lower end leaves out every such tuple.  Inside of a
subspace, a range of tuples is an interval of packed keys.
-/

namespace ResumableQuery

/-- The least byte string above every byte string that begins with `key`.  Bytes `0xFF` at the end
are dropped before the last byte is increased; where none is left the result is `0xFF`. -/
def strinc (key : Bytes) : Bytes :=
  match key.reverse.dropWhile (· == 0xFF) with
  | [] => [0xFF]
  | last :: front => ((last + 1) :: front).reverse

/-- An interval of keys, the end excluded. -/
structure KeyRange where
  first : Bytes
  stop : Bytes
  deriving DecidableEq, Repr

namespace KeyRange

/-- Whether no key lies in the interval. -/
def isEmpty (r : KeyRange) : Bool := !r.first.before r.stop

/-- Whether a key lies in the interval. -/
def contains (r : KeyRange) (key : Bytes) : Bool := !key.before r.first && key.before r.stop

end KeyRange

/-- One end of a range of tuples. -/
inductive Endpoint where
  | unbounded
  | inclusive (t : Tuple)
  | exclusive (t : Tuple)
  deriving DecidableEq, Repr

/-- A range of tuples. -/
structure TupleRange where
  low : Endpoint
  high : Endpoint
  deriving DecidableEq, Repr

namespace Endpoint

/-- The wire form. -/
def toWire : Endpoint → Bytes
  | unbounded => Wire.word32 0
  | inclusive t => Wire.word32 1 ++ t.toWire
  | exclusive t => Wire.word32 2 ++ t.toWire

/-- Reads an endpoint. -/
def ofWire : Wire.Reader Endpoint := do
  match ← Wire.readVariant 3 with
  | 0 => return unbounded
  | 1 => return inclusive (← Tuple.ofWire)
  | _ => return exclusive (← Tuple.ofWire)

end Endpoint

namespace TupleRange

/-- Every tuple. -/
def all : TupleRange := ⟨.unbounded, .unbounded⟩

/-- Every tuple that begins with `t`. -/
def startingWith (t : Tuple) : TupleRange := ⟨.inclusive t, .inclusive t⟩

/-- The tuples from `low` on and before `high`. -/
def between (low high : Tuple) : TupleRange := ⟨.inclusive low, .exclusive high⟩

/-- Whether both ends are open. -/
def isAll (r : TupleRange) : Bool := r == all

/-- The keys of the range inside of a subspace. -/
def toKeyRange (r : TupleRange) (subspace : Bytes) : KeyRange where
  first :=
    match r.low with
    | .unbounded => subspace
    | .inclusive t => subspace ++ t.pack
    | .exclusive t => strinc (subspace ++ t.pack)
  stop :=
    match r.high with
    | .unbounded => strinc subspace
    | .inclusive t => strinc (subspace ++ t.pack)
    | .exclusive t => subspace ++ t.pack

/-- The range as a reader sees it. -/
def display (r : TupleRange) : String :=
  let low :=
    match r.low with
    | .unbounded => "(-∞"
    | .inclusive t => "[" ++ t.display
    | .exclusive t => "(" ++ t.display
  let high :=
    match r.high with
    | .unbounded => ", +∞)"
    | .inclusive t => ", " ++ t.display ++ "]"
    | .exclusive t => ", " ++ t.display ++ ")"
  low ++ high

/-- The wire form. -/
def toWire (r : TupleRange) : Bytes := r.low.toWire ++ r.high.toWire

/-- Reads a range. -/
def ofWire : Wire.Reader TupleRange := do return ⟨← Endpoint.ofWire, ← Endpoint.ofWire⟩

end TupleRange

end ResumableQuery
