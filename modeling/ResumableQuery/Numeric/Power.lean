/-!
# Powers

The powers of two that binary layouts are made of, and the powers of ten of decimal ones.
-/

namespace ResumableQuery

/-- Two to a power. -/
def twoPow (n : Nat) : Nat := 1 <<< n

/-- Ten to a power. -/
def tenPow (n : Nat) : Nat := Nat.pow 10 n

end ResumableQuery
