import ResumableQuery.Numeric.Binary64
import ResumableQuery.Wire

/-!
# Tuples

A tuple is a list of dynamically typed elements: nothing, bytes, text, a nested tuple, a 64-bit
integer, a double-precision number or a truth value.  Elements of different kinds are ordered by
kind, elements of one kind by value, and tuples lexicographically.
-/

namespace ResumableQuery

/-- An element of a tuple. -/
inductive TupleValue where
  | null
  | bytes (b : Bytes)
  | text (s : String)
  | nested (elements : List TupleValue)
  | int (i : Int64)
  | float (x : Binary64)
  | bool (b : Bool)
  deriving Repr, Inhabited

/-- An ordered list of elements. -/
abbrev Tuple := List TupleValue

namespace TupleValue

/-! ### Equality -/

mutual

/-- Whether two elements are the same; numbers are compared by their bits. -/
def same : TupleValue → TupleValue → Bool
  | null, null => true
  | bytes a, bytes b => a == b
  | text a, text b => a == b
  | nested a, nested b => sameAll a b
  | int a, int b => a == b
  | float a, float b => a == b
  | bool a, bool b => a == b
  | _, _ => false

/-- Whether two lists hold the same elements. -/
def sameAll : List TupleValue → List TupleValue → Bool
  | [], [] => true
  | a :: as, b :: bs => same a b && sameAll as bs
  | _, _ => false

end

mutual

theorem same_iff (a b : TupleValue) : a.same b = true ↔ a = b := by
  cases a <;> cases b <;> simp [same, sameAll_iff]

theorem sameAll_iff (a b : List TupleValue) : sameAll a b = true ↔ a = b := by
  cases a with
  | nil => cases b <;> simp [sameAll]
  | cons x xs => cases b with
    | nil => simp [sameAll]
    | cons y ys => simp [sameAll, same_iff x y, sameAll_iff xs ys]

end

instance : DecidableEq TupleValue := fun a b => decidable_of_iff _ (same_iff a b)

/-! ### Order -/

/-- Place of an element's kind among the kinds. -/
def rank : TupleValue → Nat
  | null => 0
  | bytes _ => 1
  | text _ => 2
  | nested _ => 3
  | int _ => 4
  | float _ => 5
  | bool _ => 6

mutual

/-- Order of elements: by kind, then by value; texts by their bytes, numbers by the total order. -/
def order : TupleValue → TupleValue → Ordering
  | bytes a, bytes b => compare a b
  | text a, text b => compare (Text.utf8 a) (Text.utf8 b)
  | nested a, nested b => orderAll a b
  | int a, int b => compare a b
  | float a, float b => compare a.orderKey b.orderKey
  | bool a, bool b => compare a b
  | a, b => compare a.rank b.rank

/-- Lexicographic order of lists of elements. -/
def orderAll : List TupleValue → List TupleValue → Ordering
  | [], [] => .eq
  | [], _ :: _ => .lt
  | _ :: _, [] => .gt
  | a :: as, b :: bs => (order a b).then (orderAll as bs)

end

instance : Ord TupleValue := ⟨order⟩

/-! ### Views -/

/-- Whether the element is null. -/
def isNull : TupleValue → Bool
  | null => true
  | _ => false

/-- The text of a text element. -/
def asText : TupleValue → Option String
  | text s => some s
  | _ => none

/-- The number of an integer element. -/
def asInt : TupleValue → Option Int64
  | int i => some i
  | _ => none

/-! ### Display -/

mutual

/-- The element as a reader sees it. -/
def display : TupleValue → String
  | null => "null"
  | bytes b => "b\"" ++ String.join (b.map fun x => "\\x" ++ hexByte x) ++ "\""
  | text s => "\"" ++ s ++ "\""
  | nested elements => "(" ++ ", ".intercalate (displayAll elements) ++ ")"
  | int i => toString i.toInt
  | float x => x.text
  | bool b => if b then "true" else "false"

/-- The elements of a list as a reader sees them. -/
def displayAll : List TupleValue → List String
  | [] => []
  | v :: rest => v.display :: displayAll rest

end

/-! ### Wire format -/

mutual

/-- The wire form of an element. -/
def toWire : TupleValue → Bytes
  | null => Wire.word32 0
  | bytes b => Wire.word32 1 ++ Wire.blob b
  | text s => Wire.word32 2 ++ Wire.text s
  | nested elements => Wire.word32 3 ++ (Wire.word64 elements.length ++ allToWire elements)
  | int i => Wire.word32 4 ++ Wire.word64 i.toUInt64.toNat
  | float x => Wire.word32 5 ++ Wire.word64 x.bits.toNat
  | bool b => Wire.word32 6 ++ Wire.truth b

/-- The wire forms of the elements of a list, one after the other. -/
def allToWire : List TupleValue → Bytes
  | [] => []
  | v :: rest => v.toWire ++ allToWire rest

end

/-- Reads an element whose nesting is less deep than `depth`.  Each level of nesting takes twelve
bytes, so the length of the input is depth enough. -/
def readNested : (depth : Nat) → Wire.Reader TupleValue
  | 0 => Wire.fail .endOfInput
  | depth + 1 => do
    match ← Wire.readVariant 7 with
    | 0 => return null
    | 1 => return bytes (← Wire.readBlob)
    | 2 => return text (← Wire.readText)
    | 3 => return nested (← Wire.readList (readNested depth))
    | 4 => return int (UInt64.ofNat (← Wire.readWord 8)).toInt64
    | 5 => return float ⟨UInt64.ofNat (← Wire.readWord 8)⟩
    | _ => return bool (← Wire.readTruth)

/-- Reads an element. -/
def ofWire : Wire.Reader TupleValue := fun b => readNested (b.length + 1) b

end TupleValue

namespace Tuple

/-- Order of tuples. -/
def order (a b : Tuple) : Ordering := TupleValue.orderAll a b

instance : Ord Tuple := ⟨order⟩

/-- The tuple as a reader sees it. -/
def display (t : Tuple) : String := (TupleValue.nested t).display

/-- Whether the tuple begins with the elements of `start`. -/
def startsWith (t start : Tuple) : Bool := List.isPrefixOf start t

/-- The wire form of a tuple. -/
def toWire (t : Tuple) : Bytes := Wire.word64 t.length ++ TupleValue.allToWire t

/-- Reads a tuple. -/
def ofWire : Wire.Reader Tuple := Wire.readList TupleValue.ofWire

end Tuple

end ResumableQuery
