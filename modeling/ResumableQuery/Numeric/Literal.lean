import ResumableQuery.Numeric.Binary64

/-!
# Number literals

A number is written as an optional sign, digits, an optional fraction, and an optional exponent.
One without fraction and exponent is a whole number if it fits a machine word; every other one is
read as a double-precision number in two steps.  Its digits are gathered into a 64-bit significand,
where those that no longer fit are dropped, and the significand is scaled by a power of ten.  Each
step rounds, so the result may differ from the nearest double in its last place.
-/

namespace ResumableQuery

/-- A number as it is written. -/
structure NumberLiteral where
  negative : Bool
  /-- The digits before the point. -/
  whole : List Char
  /-- The digits after the point. -/
  fraction : List Char
  exponent : Int
  /-- Whether neither a fraction nor an exponent is written. -/
  plain : Bool
  deriving Repr

namespace NumberLiteral

/-- The number that decimal digits stand for. -/
def natOfDigits (ds : List Char) : Nat := ds.foldl (fun n d => 10 * n + (d.toNat - '0'.toNat)) 0

/-- Reads a fraction; the digits after the point, and what follows. -/
def readFraction : List Char → List Char × List Char
  | '.' :: cs => cs.span Char.isDigit
  | cs => ([], cs)

/-- Reads an exponent; zero if there is none. -/
def readExponent : List Char → Int
  | _ :: '-' :: ds => -natOfDigits ds
  | _ :: '+' :: ds => natOfDigits ds
  | _ :: ds => natOfDigits ds
  | [] => 0

/-- The literal that is written. -/
def ofChars (cs : List Char) : NumberLiteral :=
  let negative := cs.head? == some '-'
  let (whole, rest) := (if negative then cs.tail else cs).span Char.isDigit
  let (fraction, tail) := readFraction rest
  ⟨negative, whole, fraction, readExponent tail, rest.isEmpty⟩

/-- A significand continued by digits of the whole part, and how many of them are dropped. -/
def gatherWhole (n : Nat) : List Char → Nat × Nat
  | [] => (n, 0)
  | d :: ds =>
    let next := 10 * n + (d.toNat - '0'.toNat)
    if next < UInt64.size then gatherWhole next ds else (n, ds.length + 1)

/-- A significand continued by digits of the fraction, and how many of them it takes. -/
def gatherFraction (n : Nat) : List Char → Nat × Nat
  | [] => (n, 0)
  | d :: ds =>
    let next := 10 * n + (d.toNat - '0'.toNat)
    if next < UInt64.size then
      let (n, taken) := gatherFraction next ds
      (n, taken + 1)
    else (n, 0)

/-- The largest power of ten that a double-precision number can be multiplied or divided by. -/
def largestPower : Nat := 308

/-- A number divided by a power of ten, in as many steps as the exponent needs.  After three steps
nothing is left of any significand. -/
def descend : (steps : Nat) → (exponent : Nat) → Binary64 → Binary64
  | 0, exponent, x => x.div (.ofNat (tenPow exponent))
  | steps + 1, exponent, x =>
    if exponent ≤ largestPower then x.div (.ofNat (tenPow exponent))
    else descend steps (exponent - largestPower) (x.div (.ofNat (tenPow largestPower)))

/-- A significand scaled by a power of ten. -/
def scale (significand : Nat) (exponent : Int) : Binary64 :=
  let x := Binary64.ofNat significand
  if 0 ≤ exponent then x.mul (.ofNat (tenPow (min exponent.toNat (largestPower + 1))))
  else descend 3 (min (-exponent).toNat (4 * largestPower)) x

/-- The double-precision number that a literal stands for. -/
def toBinary64 (l : NumberLiteral) : Binary64 :=
  let (n, dropped) := gatherWhole 0 l.whole
  let (n, taken) := gatherFraction n l.fraction
  let x := scale n (l.exponent + dropped - taken)
  if l.negative then x.negate else x

/-- The whole number that a literal stands for, unless it does not fit: up to `2 ^ 64 - 1` upwards,
down to `-2 ^ 63` below zero.  A zero with a sign is no whole number. -/
def toInt? (l : NumberLiteral) : Option Int :=
  let n := natOfDigits l.whole
  if !l.plain then none
  else if l.negative then if 0 < n ∧ n ≤ twoPow 63 then some (-n) else none
  else if n < UInt64.size then some n else none

end NumberLiteral

end ResumableQuery
