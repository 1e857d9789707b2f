import ResumableQuery.Numeric.Binary64

/-!
# Single-precision arithmetic of scores

Search scores are single-precision numbers.  Every finite magnitude is a whole number of quanta of
`2 ^ -149`, so each operation computes its exact result as a fraction of quanta and rounds once.
-/

namespace ResumableQuery

/-- An IEEE 754 single-precision number, given by its bits. -/
structure Binary32 where
  bits : UInt32
  deriving DecidableEq, Repr, Inhabited

/-- The largest number whose square is at most `n`, with `n < 4 ^ bits`, bit by bit. -/
def floorSqrt (n : Nat) : (bits : Nat) → Nat
  | 0 => 0
  | bits + 1 =>
    let high := 2 * floorSqrt (n / 4) bits
    if (high + 1) * (high + 1) ≤ n then high + 1 else high

namespace Binary32

/-- Biased exponent of the number. -/
def exponentField (x : Binary32) : Nat := x.bits.toNat / twoPow 23 % twoPow 8

/-- Fraction bits of the number. -/
def fractionField (x : Binary32) : Nat := x.bits.toNat % twoPow 23

/-- Whether the sign bit is set. -/
def isNegative (x : Binary32) : Bool := twoPow 31 ≤ x.bits.toNat

/-- Whether the bits stand for no number. -/
def isNaN (x : Binary32) : Bool := x.exponentField == 255 && x.fractionField != 0

/-- Quanta in one. -/
def one : Nat := twoPow 149

/-- The magnitude of a finite number in quanta. -/
def quanta (x : Binary32) : Nat :=
  if x.exponentField = 0 then x.fractionField
  else (twoPow 23 + x.fractionField) * twoPow (x.exponentField - 1)

/-- The number nearest to `num / den` quanta; infinity beyond the largest finite number. -/
def round (num den : Nat) : Binary32 :=
  ⟨UInt32.ofNat (nearestMagnitude 23 (255 * twoPow 23) num den)⟩

/-- The number of opposite sign. -/
def negate (x : Binary32) : Binary32 := ⟨x.bits ^^^ 0x80000000⟩

/-- Zero. -/
def zero : Binary32 := ⟨0⟩

/-- The number nearest to a natural number. -/
def ofNat (n : Nat) : Binary32 := round (n * one) 1

/-- Sum of two magnitudes. -/
def add (x y : Binary32) : Binary32 := round (x.quanta + y.quanta) 1

/-- Difference of two magnitudes, negative when the second is larger. -/
def sub (x y : Binary32) : Binary32 :=
  if y.quanta ≤ x.quanta then round (x.quanta - y.quanta) 1
  else (round (y.quanta - x.quanta) 1).negate

/-- Product of two magnitudes. -/
def mul (x y : Binary32) : Binary32 := round (x.quanta * y.quanta) one

/-- Quotient of two magnitudes, the second not zero. -/
def div (x y : Binary32) : Binary32 := round (x.quanta * one) y.quanta

/-- Square root of a magnitude.  The root is cut after 64 further bits, and an odd last bit stands
for whatever was cut off. -/
def sqrt (x : Binary32) : Binary32 :=
  let n := x.quanta * one * twoPow 128
  let s := floorSqrt n 320
  round (2 * s + if s * s = n then 0 else 1) (twoPow 65)

/-- Scale of the fixed-point numbers that logarithms are computed in. -/
def logScale : Nat := twoPow 192

/-- The sum `z ^ i / i + z ^ (i + 2) / (i + 2) + …` in fixed point, where `power` is `z ^ i` and
`square` is `z ^ 2`. -/
def oddPowers (square : Nat) : (terms : Nat) → (power i : Nat) → Nat
  | 0, _, _ => 0
  | terms + 1, power, i => power / i + oddPowers square terms (power * square / logScale) (i + 2)

/-- Natural logarithm of `num / den`, between one and two, in fixed point: twice the inverse
hyperbolic tangent of `(num - den) / (num + den)`. -/
def logFraction (num den : Nat) : Nat :=
  let z := (num - den) * logScale / (num + den)
  2 * oddPowers (z * z / logScale) 64 z 1

/-- Natural logarithm of a finite number that is at least one. -/
def ln (x : Binary32) : Binary32 :=
  let k := (x.quanta / one).log2
  let fixed := k * logFraction 2 1 + logFraction x.quanta (one * twoPow k)
  round (fixed * one) logScale

/-- Position of the number in numerical order, both zeros alike. -/
def position (x : Binary32) : Int :=
  if x.isNegative then -((x.bits.toNat : Int) - twoPow 31) else x.bits.toNat

/-- Numerical less-than; nothing compares with a NaN. -/
def lt (x y : Binary32) : Bool := !x.isNaN && !y.isNaN && x.position < y.position

/-- Numerical equality; a NaN equals nothing. -/
def numEq (x y : Binary32) : Bool := !x.isNaN && !y.isNaN && x.position == y.position

/-- The word whose unsigned order is the total order of numbers. -/
def orderKey (x : Binary32) : UInt32 :=
  if x.isNegative then ~~~ x.bits else x.bits ^^^ 0x80000000

/-- The same number in double precision. -/
def widen (x : Binary32) : Binary64 :=
  let e := x.exponentField
  let f := x.fractionField
  let magnitude :=
    if e = 255 then 2047 * twoPow 52 + f * twoPow 29
    else if e ≠ 0 then (e + 896) * twoPow 52 + f * twoPow 29
    else if f = 0 then 0
    else
      let p := f.log2
      (p + 874) * twoPow 52 + (f - twoPow p) * twoPow (52 - p)
  ⟨UInt64.ofNat ((if x.isNegative then twoPow 63 else 0) + magnitude)⟩

end Binary32

end ResumableQuery
