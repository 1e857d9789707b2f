import ResumableQuery.Numeric.Power

/-!
# Rounding

Every finite magnitude of a binary floating-point format is a whole number of *quanta*, steps of its
least positive number.  An operation computes its exact result as a fraction of quanta and rounds
once, to the nearest representable magnitude and to the even one of two.

Read as numbers, the bit patterns of magnitudes count the representable ones in order.  So rounding
past the largest fraction carries into the exponent by itself.
-/

namespace ResumableQuery

/-- The whole number nearest to `num / den`, the even one of two. -/
def roundHalfEven (num den : Nat) : Nat :=
  let q := num / den
  let r := num % den
  if 2 * r < den then q else if den < 2 * r then q + 1 else q + q % 2

/-- The bit pattern of the magnitude nearest to `num / den` quanta, in a format with some fraction
bits; that of infinity beyond the largest finite magnitude. -/
def nearestMagnitude (fractionBits infinity num den : Nat) : Nat :=
  let k := (num / den).log2 - fractionBits
  min infinity (k * twoPow fractionBits + roundHalfEven num (den * twoPow k))

end ResumableQuery
