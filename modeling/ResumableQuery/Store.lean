import ResumableQuery.Ordered
import ResumableQuery.Range

/-!
# Key-value stores

A store is a finite map from keys to values, both byte strings, that can be read in key order.
-/

namespace ResumableQuery

/-- The name of a store. -/
abbrev StoreName := String

/-- A finite map of byte strings, as its pairs in key order. -/
abbrev Store := List (Bytes × Bytes)

namespace Store

/-- The value of a key. -/
def get? (s : Store) (key : Bytes) : Option Bytes := Ordered.find? key s

/-- The store in which a key has a value. -/
def set (s : Store) (key value : Bytes) : Store := Ordered.insert key value s

/-- The store in which a key has no value. -/
def clear (s : Store) (key : Bytes) : Store := Ordered.erase key s

/-- The pairs whose key lies in an interval, in key order. -/
def within (s : Store) (r : KeyRange) : List (Bytes × Bytes) := s.filter fun (k, _) => r.contains k

/-- At most `limit` pairs of an interval, in ascending or descending key order. -/
def scan (s : Store) (r : KeyRange) (reverse : Bool) (limit : Nat) : List (Bytes × Bytes) :=
  let pairs := s.within r
  (if reverse then pairs.reverse else pairs).take limit

end Store

end ResumableQuery
