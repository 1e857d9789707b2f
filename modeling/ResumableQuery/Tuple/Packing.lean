import ResumableQuery.Text.Base64Url
import ResumableQuery.Tuple.Basic

/-!
# Packed tuples

Packing writes a tuple as a byte string so that the order of byte strings is the order of tuples.
Each element starts with a byte for its kind.  Bytes and texts are closed by a zero byte, and a
zero byte inside of them is followed by `0xFF`; numbers are written most significant byte first
with their sign bit flipped.  A nested tuple is closed by a zero byte as well, so a null inside of
one is written `0x00 0xFF`.
-/

namespace ResumableQuery

/-- Why a packed tuple or a resume token cannot be read. -/
inductive DecodeError where
  /-- The text is not base64. -/
  | base64 (fault : Base64Url.Fault)
  /-- The bytes run out inside of an element. -/
  | length
  /-- No kind of element has this code. -/
  | typeCode (code : UInt8)
  /-- The bytes of a text element are not UTF-8. -/
  | utf8
  /-- The bytes have no meaning. -/
  | format
  /-- A position message cannot be read. -/
  | message (fault : Wire.ReadError)
  deriving DecidableEq, Repr

/-- Name of the kind of a decode error. -/
def DecodeError.kind : DecodeError → String
  | .base64 _ => "InvalidBase64"
  | .length => "InvalidLength"
  | .typeCode _ => "InvalidTypeCode"
  | .utf8 => "InvalidUtf8"
  | .format => "InvalidFormat"
  | .message _ => "Other"

/-- Wording of a decode error. -/
def DecodeError.text : DecodeError → String
  | .base64 fault => "Invalid Base64: " ++ fault.message
  | .length => "Invalid Length"
  | .typeCode code => "Invalid tuple type code: 0x" ++ hexByte code
  | .utf8 => "Invalid UTF-8"
  | .format => "Invalid Format"
  | .message fault => "Other: " ++ fault.message

namespace TupleValue

/-! ### Writing -/

/-- The byte that follows a zero byte which does not close anything. -/
def escape : UInt8 := 0xFF

/-- Bytes closed by a zero byte. -/
def closed : Bytes → Bytes
  | [] => [0]
  | b :: rest => if b = 0 then 0 :: escape :: closed rest else b :: closed rest

/-- The word whose unsigned order is the order of integers. -/
def intKey (i : Int64) : UInt64 := i.toUInt64 ^^^ Binary64.signBit

mutual

/-- The packed form of an element, inside of a nested tuple or outside. -/
def pack (inside : Bool) : TupleValue → Bytes
  | null => if inside then [0, escape] else [0]
  | bytes b => 0x01 :: closed b
  | text s => 0x02 :: closed (Text.utf8 s)
  | nested elements => 0x05 :: packInside elements
  | int i => 0x0C :: bigEndian64 (intKey i)
  | float x => 0x21 :: bigEndian64 x.orderKey
  | bool b => [if b then 0x27 else 0x26]

/-- The packed elements of a nested tuple and the byte that closes it. -/
def packInside : List TupleValue → Bytes
  | [] => [0]
  | v :: rest => v.pack true ++ packInside rest

end

/-! ### Reading -/

/-- Why reading comes to no element. -/
inductive Fault where
  /-- The bytes are refused. -/
  | refused (e : DecodeError)
  /-- A byte was taken that is not there. -/
  | outOfBounds
  /-- Reading did not come to an end. -/
  | outOfFuel
  deriving DecidableEq, Repr

/-- The decode error that is reported.  Nothing but a refusal comes about, so the other faults need
no error of their own. -/
def Fault.error : Fault → DecodeError
  | .refused e => e
  | .outOfBounds => .length
  | .outOfFuel => .length

/-- The content of bytes closed by a zero byte, and what follows. -/
def unclose : Bytes → Except Fault (Bytes × Bytes)
  | [] => .error (.refused .length)
  | b :: rest =>
    if b = 0 then
      match rest with
      | c :: more =>
        if c = escape then (unclose more).map fun (content, left) => (0 :: content, left)
        else .ok ([], c :: more)
      | [] => .ok ([], [])
    else (unclose rest).map fun (content, left) => (b :: content, left)

/-- The next eight bytes as a word, and what follows. -/
def takeWord (b : Bytes) : Except Fault (UInt64 × Bytes) :=
  let taken := b.take 8
  if taken.length = 8 then .ok (ofBigEndian64 taken, b.drop 8) else .error (.refused .length)

mutual

/-- The element that a byte string starts with and what follows.  Its first byte is taken without a
look whether there is one.  `fuel` bounds the number of bytes that start an element. -/
def unpack (inside : Bool) : (fuel : Nat) → Bytes → Except Fault (TupleValue × Bytes)
  | _, [] => .error .outOfBounds
  | 0, _ :: _ => .error .outOfFuel
  | fuel + 1, code :: rest =>
    if code = 0x00 then
      if inside then
        match rest with
        | c :: more => if c = escape then .ok (null, more) else .error (.refused .format)
        | [] => .error (.refused .format)
      else .ok (null, rest)
    else if code = 0x01 then do
      let (content, rest) ← unclose rest
      return (bytes content, rest)
    else if code = 0x02 then do
      let (content, rest) ← unclose rest
      match Text.ofUtf8 content with
      | .ok s => return (text s, rest)
      | .error _ => .error (.refused .utf8)
    else if code = 0x05 then do
      let (elements, rest) ← unpackInside fuel rest
      return (nested elements, rest)
    else if code = 0x0C then do
      let (word, rest) ← takeWord rest
      return (int (word ^^^ Binary64.signBit).toInt64, rest)
    else if code = 0x21 then do
      let (word, rest) ← takeWord rest
      return (float (Binary64.ofOrderKey word), rest)
    else if code = 0x26 then .ok (bool false, rest)
    else if code = 0x27 then .ok (bool true, rest)
    else .error (.refused (.typeCode code))

/-- The elements of a nested tuple up to the byte that closes it, and what follows. -/
def unpackInside : (fuel : Nat) → Bytes → Except Fault (List TupleValue × Bytes)
  | _, [] => .error (.refused .length)
  | 0, _ :: _ => .error .outOfFuel
  | fuel + 1, b :: rest =>
    if b = 0 ∧ rest.head? ≠ some escape then .ok ([], rest)
    else do
      let (v, rest) ← unpack true fuel (b :: rest)
      let (vs, rest) ← unpackInside fuel rest
      return (v :: vs, rest)

end

/-- The elements of a packed tuple. -/
def unpackAll : (fuel : Nat) → Bytes → Except Fault (List TupleValue)
  | _, [] => .ok []
  | 0, _ :: _ => .error .outOfFuel
  | fuel + 1, b => do
    let (v, rest) ← unpack false (2 * b.length) b
    return v :: (← unpackAll fuel rest)

end TupleValue

namespace Tuple

/-- The packed form of a tuple. -/
def pack (t : Tuple) : Bytes := t.flatMap (TupleValue.pack false)

/-- Reads the tuple that a byte string is the packed form of.  Each element takes a byte at least,
so the length of the input is fuel enough. -/
def read (b : Bytes) : Except TupleValue.Fault Tuple := TupleValue.unpackAll b.length b

/-- The tuple that a byte string is the packed form of. -/
def unpack (b : Bytes) : Except DecodeError Tuple := (read b).mapError TupleValue.Fault.error

end Tuple

end ResumableQuery
