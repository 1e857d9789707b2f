import ResumableQuery.Numeric.Rounding
import ResumableQuery.Numeric.Shortest

/-!
# Double-precision numbers by their bits

Tuples hold double-precision numbers as bit patterns: they are compared by the total order that
places `-NaN` first and `NaN` last, and equal only when every bit is.  `orderKey` maps that order to
the order of unsigned words, and `text` writes the shortest decimal that reads back.  Arithmetic is
on magnitudes, which are whole numbers of quanta of `2 ^ -1074`.
-/

namespace ResumableQuery

/-- An IEEE 754 double-precision number, given by its bits. -/
structure Binary64 where
  bits : UInt64
  deriving DecidableEq, Repr, Inhabited

namespace Binary64

/-- Sign bit of a word. -/
def signBit : UInt64 := 0x8000000000000000

/-- Whether the sign bit is set. -/
def isNegative (x : Binary64) : Bool := signBit ≤ x.bits

/-- The word whose unsigned order is the total order of numbers: the sign bit is flipped, and
below zero every other bit too. -/
def orderKey (x : Binary64) : UInt64 :=
  if x.isNegative then ~~~ x.bits else x.bits ^^^ signBit

/-- The number with a given order key. -/
def ofOrderKey (k : UInt64) : Binary64 :=
  if signBit ≤ k then ⟨k ^^^ signBit⟩ else ⟨~~~ k⟩

/-- Biased exponent of the number. -/
def exponentField (x : Binary64) : Nat := x.bits.toNat / twoPow 52 % twoPow 11

/-- Fraction bits of the number. -/
def fractionField (x : Binary64) : Nat := x.bits.toNat % twoPow 52

/-- Significand and binary exponent of a finite number's magnitude. -/
def significand (x : Binary64) : Nat × Int :=
  if x.exponentField = 0 then (x.fractionField, -1074)
  else (twoPow 52 + x.fractionField, (x.exponentField : Int) - 1075)

/-- The digits of a finite number other than zero. -/
def digits (x : Binary64) (tie : Tie) : DecimalDigits :=
  let (m, q) := x.significand
  Shortest.ofBinary tie m q (x.fractionField == 0 && x.exponentField > 1)

/-- Whether the number is zero, of either sign. -/
def isZero (x : Binary64) : Bool := x.exponentField == 0 && x.fractionField == 0

/-- Whether all exponent bits are set, as in infinities and NaNs. -/
def isSpecial (x : Binary64) : Bool := x.exponentField == 2047

/-- The shortest text that reads back, never with an exponent.  Of two that are equally near, it is
the upper one. -/
def text (x : Binary64) : String :=
  let sign := if x.isNegative then "-" else ""
  if x.isSpecial then if x.fractionField == 0 then sign ++ "inf" else "NaN"
  else if x.isZero then sign ++ "0"
  else sign ++ (x.digits .upper).positional

/-- The shortest text of a finite number that reads back, of two that are equally near the even one.
A whole number ends in `.0`, and a number of more than sixteen whole digits or of five or more
leading fraction zeros has an exponent with its sign. -/
def scientificText (x : Binary64) : String :=
  let sign := if x.isNegative then "-" else ""
  if x.isZero then sign ++ "0.0"
  else
    let d := x.digits .even
    let point : Int := d.length + d.exponent
    if 0 ≤ d.exponent ∧ point ≤ 16 then sign ++ d.positional ++ ".0"
    else if -5 < point ∧ point ≤ 16 then sign ++ d.positional
    else
      let ds := (Nat.repr d.digits).toList
      let mantissa := if ds.length = 1 then ds else ds.take 1 ++ '.' :: ds.drop 1
      sign ++ String.ofList mantissa ++ (if point ≤ 0 then "e" else "e+") ++ toString (point - 1)

/-! ### Arithmetic -/

/-- Quanta in one. -/
def one : Nat := twoPow 1074

/-- The magnitude of a finite number in quanta. -/
def quanta (x : Binary64) : Nat :=
  if x.exponentField = 0 then x.fractionField
  else (twoPow 52 + x.fractionField) * twoPow (x.exponentField - 1)

/-- The number nearest to `num / den` quanta; infinity beyond the largest finite number. -/
def round (num den : Nat) : Binary64 :=
  ⟨UInt64.ofNat (nearestMagnitude 52 (2047 * twoPow 52) num den)⟩

/-- The number of opposite sign. -/
def negate (x : Binary64) : Binary64 := ⟨x.bits ^^^ signBit⟩

/-- The number nearest to a natural number. -/
def ofNat (n : Nat) : Binary64 := round (n * one) 1

/-- Product of two magnitudes. -/
def mul (x y : Binary64) : Binary64 := round (x.quanta * y.quanta) one

/-- Quotient of two magnitudes, the second not zero. -/
def div (x y : Binary64) : Binary64 := round (x.quanta * one) y.quanta

end Binary64

end ResumableQuery
