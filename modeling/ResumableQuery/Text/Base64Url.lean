import ResumableQuery.Bytes

/-!
# Base64 for addresses

Resume tokens travel as base64 with the URL-safe alphabet and without padding.  `encode` writes
three bytes as four symbols; `decode` accepts exactly what `encode` writes, so unused bits of the
last symbol must be zero.
-/

namespace ResumableQuery.Base64Url

/-- Why a text is not base64. -/
inductive Fault where
  /-- A byte outside of the alphabet, or a padding byte inside of the text. -/
  | symbol (byte : UInt8) (offset : Nat)
  /-- A last symbol with unused bits that are not zero. -/
  | lastSymbol (byte : UInt8) (offset : Nat)
  /-- A text that ends in a single symbol. -/
  | length (symbols : Nat)
  /-- A padded text. -/
  | padding
  deriving DecidableEq, Repr

/-- Wording of a fault. -/
def Fault.message : Fault → String
  | .symbol byte offset => s!"Invalid symbol {byte.toNat}, offset {offset}."
  | .lastSymbol byte offset => s!"Invalid last symbol {byte.toNat}, offset {offset}."
  | .length symbols => s!"Invalid input length: {symbols}"
  | .padding => "Invalid padding"

/-- The padding byte. -/
def pad : UInt8 := 61

/-- The symbol of a number below 64. -/
def symbol (n : Nat) : UInt8 :=
  if n < 26 then UInt8.ofNat (65 + n)
  else if n < 52 then UInt8.ofNat (71 + n)
  else if n < 62 then UInt8.ofNat (n - 4)
  else if n = 62 then 45
  else 95

/-- The number of a symbol. -/
def value (b : UInt8) : Option Nat :=
  let n := b.toNat
  if 65 ≤ n ∧ n ≤ 90 then some (n - 65)
  else if 97 ≤ n ∧ n ≤ 122 then some (n - 71)
  else if 48 ≤ n ∧ n ≤ 57 then some (n + 4)
  else if n = 45 then some 62
  else if n = 95 then some 63
  else none

/-- The symbols of a byte string. -/
def symbols : Bytes → Bytes
  | [] => []
  | [a] => [symbol (a.toNat / 4), symbol (a.toNat % 4 * 16)]
  | [a, b] =>
    [symbol (a.toNat / 4), symbol (a.toNat % 4 * 16 + b.toNat / 16), symbol (b.toNat % 16 * 4)]
  | a :: b :: c :: rest =>
    symbol (a.toNat / 4) :: symbol (a.toNat % 4 * 16 + b.toNat / 16) ::
      symbol (b.toNat % 16 * 4 + c.toNat / 64) :: symbol (c.toNat % 64) :: symbols rest

/-- The base64 text of a byte string. -/
def encode (b : Bytes) : String := String.ofList ((symbols b).map fun s => Char.ofNat s.toNat)

/-- First byte of a group of numbers. -/
def firstByte (v w : Nat) : UInt8 := UInt8.ofNat (v * 4 + w / 16)

/-- Second byte of a group of numbers. -/
def secondByte (w x : Nat) : UInt8 := UInt8.ofNat (w % 16 * 16 + x / 4)

/-- Third byte of a group of numbers. -/
def thirdByte (x y : Nat) : UInt8 := UInt8.ofNat (x % 4 * 64 + y)

/-- The number of the symbol at an offset. -/
def valueAt (offset : Nat) (b : UInt8) : Except Fault Nat :=
  match value b with
  | some v => .ok v
  | none => .error (.symbol b offset)

/-- The numbers of the last group, whose symbols start at `offset`, and how many padding bytes
close it.  `index` counts the symbols seen. -/
def lastGroup (offset : Nat) : (index pads : Nat) → Bytes → Except Fault (List Nat × Nat)
  | _, pads, [] => .ok ([], pads)
  | index, pads, b :: rest => do
    if b = pad then
      if index < 2 then .error (.symbol b (offset + index))
      else lastGroup offset (index + 1) (pads + 1) rest
    else if pads > 0 then .error (.symbol pad (offset + index - pads))
    else
      let v ← valueAt (offset + index) b
      let (vs, pads) ← lastGroup offset (index + 1) pads rest
      return (v :: vs, pads)

/-- The bytes of the last group, of one to four symbols. -/
def decodeLast (offset : Nat) (group : Bytes) : Except Fault Bytes := do
  let (values, pads) ← lastGroup offset 0 0 group
  if values.length < 2 then .error (.length (offset + values.length))
  else if pads > 0 then .error .padding
  else
    let stray := Fault.lastSymbol (group.getLastD 0) (offset + values.length - 1)
    match values with
    | [v, w] => if w % 16 = 0 then .ok [firstByte v w] else .error stray
    | [v, w, x] => if x % 4 = 0 then .ok [firstByte v w, secondByte w x] else .error stray
    | [v, w, x, y] => .ok [firstByte v w, secondByte w x, thirdByte x y]
    | _ => .ok []

/-- The bytes of the symbols from `offset` on. -/
def decodeFrom (offset : Nat) : Bytes → Except Fault Bytes
  | [] => .ok []
  | a :: b :: c :: d :: e :: rest => do
    let v ← valueAt offset a
    let w ← valueAt (offset + 1) b
    let x ← valueAt (offset + 2) c
    let y ← valueAt (offset + 3) d
    let more ← decodeFrom (offset + 4) (e :: rest)
    return firstByte v w :: secondByte w x :: thirdByte x y :: more
  | group => decodeLast offset group

/-- The bytes that a sequence of symbols stands for.  A stray byte in last place is reported
before anything else when it is all there is of its group. -/
def decode (text : Bytes) : Except Fault Bytes :=
  let last := text.getLastD pad
  if text.length % 4 = 1 ∧ last ≠ pad ∧ value last = none then
    .error (.symbol last (text.length - 1))
  else decodeFrom 0 text

end ResumableQuery.Base64Url
