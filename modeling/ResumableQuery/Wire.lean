import ResumableQuery.Text.Utf8

/-!
# The wire format

Stored records, resume positions and hashed plan descriptions share one binary layout: whole
numbers take a fixed number of bytes, least significant first; a list or a text is its length in
eight bytes and then its members; a variant is its four-byte number and then its fields.  Readers
take a value off the front of a byte string and leave the rest.
-/

namespace ResumableQuery.Wire

/-- Why a value cannot be read. -/
inductive ReadError where
  /-- The bytes run out inside of a number, a tag or a list. -/
  | endOfInput
  /-- A text is declared longer than the bytes that are left. -/
  | textOverrun
  /-- A variant number is not below the number of variants. -/
  | variant (found count : Nat)
  /-- The tag of an optional value is neither zero nor one. -/
  | optionTag (found : Nat)
  /-- A truth value is neither zero nor one. -/
  | truthValue (found : Nat)
  /-- The bytes of a text are not UTF-8. -/
  | text (fault : Text.Utf8Fault)
  deriving DecidableEq, Repr

/-- Wording of a read error. -/
def ReadError.message : ReadError → String
  | .endOfInput => "io error: unexpected end of file"
  | .textOverrun => "io error: "
  | .variant found count =>
    "invalid value: integer `" ++ toString found ++ "`, expected variant index 0 <= i < " ++
      toString count
  | .optionTag found => s!"tag for enum is not valid, found {found}"
  | .truthValue found => s!"invalid u8 while decoding bool, expected 0 or 1, found {found}"
  | .text fault => "string is not valid utf8: " ++ fault.message

/-- A reader takes a value off the front of a byte string. -/
abbrev Reader (α : Type) := StateT Bytes (Except ReadError) α

/-! ### Writing -/

/-- A whole number of four bytes. -/
def word32 (n : Nat) : Bytes := littleEndian 4 n

/-- A whole number of eight bytes. -/
def word64 (n : Nat) : Bytes := littleEndian 8 n

/-- A truth value. -/
def truth (b : Bool) : Bytes := [if b then 1 else 0]

/-- A byte string, as a list of bytes. -/
def blob (b : Bytes) : Bytes := word64 b.length ++ b

/-- A text. -/
def text (s : String) : Bytes := blob (Text.utf8 s)

/-- A list, given how to write a member. -/
def list (write : α → Bytes) (xs : List α) : Bytes := word64 xs.length ++ xs.flatMap write

/-- An optional value, given how to write it. -/
def optional (write : α → Bytes) : Option α → Bytes
  | none => [0]
  | some x => 1 :: write x

/-! ### Reading -/

/-- Fails. -/
def fail (e : ReadError) : Reader α := fun _ => .error e

/-- The next `n` bytes. -/
def readBytes (n : Nat) : Reader Bytes := fun b =>
  let taken := b.take n
  if taken.length = n then .ok (taken, b.drop n) else .error .endOfInput

/-- A whole number of `n` bytes. -/
def readWord (n : Nat) : Reader Nat := do return ofLittleEndian (← readBytes n)

/-- A truth value. -/
def readTruth : Reader Bool := do
  match ← readWord 1 with
  | 0 => return false
  | 1 => return true
  | n => fail (.truthValue n)

/-- The number of a variant of a type that has `count` of them. -/
def readVariant (count : Nat) : Reader Nat := do
  let n ← readWord 4
  if n < count then return n else fail (.variant n count)

/-- A byte string. -/
def readBlob : Reader Bytes := do readBytes (← readWord 8)

/-- A text. -/
def readText : Reader String := do
  let n ← readWord 8
  let taken := (← get).take n
  if taken.length = n then
    match Text.ofUtf8 taken with
    | .ok s => do
      set ((← get).drop n)
      return s
    | .error fault => fail (.text fault)
  else fail .textOverrun

/-- `n` values one after the other. -/
def readMany (read : Reader α) : Nat → Reader (List α)
  | 0 => return []
  | n + 1 => do
    let x ← read
    let xs ← readMany read n
    return x :: xs

/-- A list, given how to read a member. -/
def readList (read : Reader α) : Reader (List α) := do readMany read (← readWord 8)

/-- An optional value, given how to read it. -/
def readOptional (read : Reader α) : Reader (Option α) := do
  match ← readWord 1 with
  | 0 => return none
  | 1 => return some (← read)
  | n => fail (.optionTag n)

/-- The value at the front of a byte string; further bytes are allowed. -/
def decode (read : Reader α) (b : Bytes) : Except ReadError α := (read b).map (·.1)

end ResumableQuery.Wire
