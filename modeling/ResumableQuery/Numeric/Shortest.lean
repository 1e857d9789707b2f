import ResumableQuery.Numeric.Power

/-!
# Shortest decimal text of a binary fraction

A finite positive floating-point number is `m · 2 ^ q`, and the reals that round to it form an
interval around it.  `Shortest.ofBinary` finds the fewest decimal digits that lie in that interval,
and among those the digits nearest to the number itself; of two that are equally near, a `Tie` says
which.  `positional` writes them without an exponent.
-/

namespace ResumableQuery

/-- A positive decimal number `digits · 10 ^ exponent`. -/
structure DecimalDigits where
  digits : Nat
  exponent : Int
  deriving DecidableEq, Repr

/-- Which of two neighbours is taken that are equally near. -/
inductive Tie where
  | upper
  | even
  deriving DecidableEq, Repr

/-- Whether a tie goes down to `below`. -/
def Tie.goesDown (tie : Tie) (below : Nat) : Bool := tie = even && below % 2 == 0

namespace Shortest

/-- A scale at which a number, its two borders and their closedness are whole. -/
structure Interval where
  /-- Numerator of the lower border. -/
  low : Nat
  /-- Numerator of the number. -/
  value : Nat
  /-- Numerator of the upper border. -/
  high : Nat
  /-- Common denominator. -/
  scale : Nat
  /-- Whether the borders themselves round to the number. -/
  closed : Bool

/-- The reals that round to `m · 2 ^ q`.  Below a power of two the next number is half as far
away, unless `m` is already at the least exponent. -/
def Interval.ofBinary (m : Nat) (q : Int) (lowerIsCloser : Bool) : Interval :=
  let unit := twoPow q.toNat
  let scale := 4 * twoPow (-q).toNat
  { low := (4 * m - if lowerIsCloser then 1 else 2) * unit
    value := 4 * m * unit
    high := (4 * m + 2) * unit
    scale := scale
    closed := m % 2 == 0 }

/-- Whether `n · num / den` rounds to the number. -/
def Interval.holds (i : Interval) (n num den : Nat) : Bool :=
  let x := n * num * i.scale
  let lo := i.low * den
  let hi := i.high * den
  if i.closed then lo ≤ x && x ≤ hi else lo < x && x < hi

/-- The exponent `e` with `10 ^ e ≤ value / scale < 10 ^ (e + 1)`, searched upwards from `e`. -/
def magnitude (value scale : Nat) : Nat → Int → Int
  | 0, e => e
  | fuel + 1, e =>
    if value * tenPow (-(e + 1)).toNat < scale * tenPow (e + 1).toNat then e
    else magnitude value scale fuel (e + 1)

/-- The digits on the grid of step `10 ^ e` that round to the number, the nearer one of two. -/
def onGrid (tie : Tie) (i : Interval) (e : Int) : Option Nat :=
  let num := tenPow e.toNat
  let den := tenPow (-e).toNat
  let below := (i.value * den) / (i.scale * num)
  let above := below + 1
  let belowFits := i.holds below num den
  let aboveFits := i.holds above num den
  if belowFits && aboveFits then
    let toBelow := i.value * den - below * num * i.scale
    let toAbove := above * num * i.scale - i.value * den
    let down := toBelow < toAbove || toBelow == toAbove && tie.goesDown below
    some (if down then below else above)
  else if belowFits then some below
  else if aboveFits then some above
  else none

/-- The first of the grids `10 ^ top, 10 ^ (top - 1), …` with a hit. -/
def search (tie : Tie) (i : Interval) : Nat → Int → DecimalDigits
  | 0, e => ⟨(i.value * tenPow (-e).toNat) / (i.scale * tenPow e.toNat), e⟩
  | fuel + 1, e =>
    match onGrid tie i e with
    | some n => ⟨n, e⟩
    | none => search tie i fuel (e - 1)

/-- Trailing zeros of the digits moved into the exponent. -/
def trim : Nat → DecimalDigits → DecimalDigits
  | 0, d => d
  | fuel + 1, d =>
    if d.digits ≠ 0 ∧ d.digits % 10 = 0 then trim fuel ⟨d.digits / 10, d.exponent + 1⟩ else d

/-- The shortest decimal that rounds to `m · 2 ^ q`. -/
def ofBinary (tie : Tie) (m : Nat) (q : Int) (lowerIsCloser : Bool) : DecimalDigits :=
  let i := Interval.ofBinary m q lowerIsCloser
  let e := magnitude i.value i.scale 700 (-330)
  trim 20 (search tie i 20 e)

end Shortest

/-- The number of decimal digits of the digits. -/
def DecimalDigits.length (d : DecimalDigits) : Nat := (Nat.repr d.digits).length

/-- Decimal text without an exponent: whole numbers have no point, fractions a leading zero. -/
def DecimalDigits.positional (d : DecimalDigits) : String :=
  let ds := Nat.repr d.digits
  if d.exponent ≥ 0 then ds ++ "".pushn '0' d.exponent.toNat
  else
    let places := (-d.exponent).toNat
    if places < ds.length then
      String.ofList (ds.toList.take (ds.length - places)) ++ "." ++
        String.ofList (ds.toList.drop (ds.length - places))
    else "0." ++ "".pushn '0' (places - ds.length) ++ ds

end ResumableQuery
