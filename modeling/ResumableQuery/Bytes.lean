/-!
# Byte strings

Packed keys, stored records and resume tokens are all byte strings, ordered lexicographically by
unsigned byte.  This file fixes the type, its order, hexadecimal digits and the two fixed-width
layouts of a 64-bit word.
-/

namespace ResumableQuery

/-- A string of bytes. -/
abbrev Bytes := List UInt8

/-- Whether the first byte string sorts strictly before the second. -/
def Bytes.before (a b : Bytes) : Bool := compare a b == .lt

/-- The hexadecimal digit of a number below sixteen, in lower case. -/
def hexDigit (n : Nat) : Char :=
  if n < 10 then Char.ofNat (48 + n) else Char.ofNat (87 + n)

/-- The two hexadecimal digits of a byte. -/
def hexByte (b : UInt8) : String := String.ofList [hexDigit (b.toNat / 16), hexDigit (b.toNat % 16)]

/-- The hexadecimal text of a byte string, two digits a byte. -/
def Bytes.toHex (b : Bytes) : String := String.join (b.map hexByte)

/-- The value of a hexadecimal digit. -/
def hexValue? (c : Char) : Option Nat :=
  let n := c.toNat
  if 48 ≤ n ∧ n ≤ 57 then some (n - 48)
  else if 97 ≤ n ∧ n ≤ 102 then some (n - 87)
  else if 65 ≤ n ∧ n ≤ 70 then some (n - 55)
  else none

/-- The byte string of pairs of hexadecimal digits. -/
def hexBytes? : List Char → Option Bytes
  | [] => some []
  | a :: b :: rest => do
    return UInt8.ofNat (16 * (← hexValue? a) + (← hexValue? b)) :: (← hexBytes? rest)
  | _ => none

/-- The byte string of a hexadecimal text. -/
def Bytes.ofHex? (s : String) : Option Bytes := hexBytes? s.toList

/-- The `n` low bytes of a number, least significant first. -/
def littleEndian : (n : Nat) → Nat → Bytes
  | 0, _ => []
  | n + 1, x => UInt8.ofNat (x % 256) :: littleEndian n (x / 256)

/-- The number whose bytes, least significant first, are given. -/
def ofLittleEndian : Bytes → Nat
  | [] => 0
  | b :: rest => b.toNat + 256 * ofLittleEndian rest

/-- The eight bytes of a word, most significant first. -/
def bigEndian64 (x : UInt64) : Bytes := (littleEndian 8 x.toNat).reverse

/-- The word whose eight bytes, most significant first, are given. -/
def ofBigEndian64 (b : Bytes) : UInt64 := UInt64.ofNat (ofLittleEndian b.reverse)

@[simp] theorem littleEndian_length (n x : Nat) : (littleEndian n x).length = n := by
  induction n generalizing x with
  | zero => rfl
  | succ n ih => simp [littleEndian, ih]

/-- Reading back the low bytes of a number gives the number modulo their range. -/
theorem ofLittleEndian_littleEndian (n x : Nat) :
    ofLittleEndian (littleEndian n x) = x % Nat.pow 256 n := by
  induction n generalizing x with
  | zero => simp [littleEndian, ofLittleEndian, Nat.mod_one]
  | succ n ih =>
    have : (UInt8.ofNat (x % 256)).toNat = x % 256 := by
      simp [UInt8.toNat_ofNat']
    have range : Nat.pow 256 (n + 1) = 256 * Nat.pow 256 n := Nat.mul_comm _ _
    rw [littleEndian, ofLittleEndian, ih, this, range, Nat.mod_mul]

end ResumableQuery
