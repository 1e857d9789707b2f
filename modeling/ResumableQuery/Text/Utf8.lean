import ResumableQuery.Bytes

/-!
# UTF-8

Strings are stored as their UTF-8 bytes.  `utf8` writes them, and `ofUtf8` reads a whole byte string
back, or says where the first faulty sequence starts and how many of its bytes belong together.
-/

namespace ResumableQuery.Text

/-- The UTF-8 bytes of a text. -/
def utf8 (s : String) : Bytes := s.toList.flatMap String.utf8EncodeChar

/-- The first fault of a byte string that is not UTF-8. -/
structure Utf8Fault where
  /-- How many bytes before the fault are in order. -/
  validUpTo : Nat
  /-- How many bytes make up the fault; none if the byte string ends inside of a character. -/
  length : Option Nat
  deriving DecidableEq, Repr

/-- Wording of a fault. -/
def Utf8Fault.message (f : Utf8Fault) : String :=
  match f.length with
  | some n => s!"invalid utf-8 sequence of {n} bytes from index {f.validUpTo}"
  | none => s!"incomplete utf-8 byte sequence from index {f.validUpTo}"

/-- Whether a byte can follow the first byte of a character. -/
def isTrailing (b : UInt8) : Bool := 0x80 ≤ b && b < 0xC0

/-- The six bits that a following byte carries. -/
def trailingBits (b : UInt8) : Nat := b.toNat % 64

/-- Whether `b` can be the second byte of a character whose first of three or four bytes is
`lead`: overlong forms, surrogates and numbers beyond the last code point are ruled out. -/
def secondFits (lead b : UInt8) : Bool :=
  if lead = 0xE0 then 0xA0 ≤ b && b < 0xC0
  else if lead = 0xED then 0x80 ≤ b && b < 0xA0
  else if lead = 0xF0 then 0x90 ≤ b && b < 0xC0
  else if lead = 0xF4 then 0x80 ≤ b && b < 0x90
  else isTrailing b

/-- The first character of a byte string and what follows it, or the length of the fault. -/
def takeChar : Bytes → Except (Option Nat) (Char × Bytes)
  | [] => .error none
  | a :: rest =>
    if a < 0x80 then .ok (Char.ofNat a.toNat, rest)
    else if a < 0xC2 then .error (some 1)
    else if a < 0xE0 then
      match rest with
      | [] => .error none
      | b :: rest =>
        if isTrailing b then .ok (Char.ofNat ((a.toNat - 0xC0) * 64 + trailingBits b), rest)
        else .error (some 1)
    else if a < 0xF0 then
      match rest with
      | [] => .error none
      | b :: rest =>
        if !secondFits a b then .error (some 1)
        else
          match rest with
          | [] => .error none
          | c :: rest =>
            if isTrailing c then
              .ok (Char.ofNat ((a.toNat - 0xE0) * 4096 + trailingBits b * 64 + trailingBits c),
                rest)
            else .error (some 2)
    else if a < 0xF5 then
      match rest with
      | [] => .error none
      | b :: rest =>
        if !secondFits a b then .error (some 1)
        else
          match rest with
          | [] => .error none
          | c :: rest =>
            if !isTrailing c then .error (some 2)
            else
              match rest with
              | [] => .error none
              | d :: rest =>
                if isTrailing d then
                  .ok (Char.ofNat ((a.toNat - 0xF0) * 262144 + trailingBits b * 4096 +
                    trailingBits c * 64 + trailingBits d), rest)
                else .error (some 3)
    else .error (some 1)

theorem takeChar_shorter {b rest : Bytes} {c : Char} (h : takeChar b = .ok (c, rest)) :
    rest.length < b.length := by
  unfold takeChar at h
  repeat' split at h
  all_goals first | (simp at h; done) | (simp at h; obtain ⟨_, rfl⟩ := h; simp <;> omega)

/-- The characters of a byte string that starts after `done` bytes. -/
def chars (done : Nat) (b : Bytes) : Except Utf8Fault (List Char) :=
  if b.isEmpty then .ok []
  else
    match h : takeChar b with
    | .error length => .error ⟨done, length⟩
    | .ok (c, rest) =>
      have := takeChar_shorter h
      (chars (done + (String.utf8EncodeChar c).length) rest).map (c :: ·)
termination_by b.length

/-- The text that a byte string writes. -/
def ofUtf8 (b : Bytes) : Except Utf8Fault String := (chars 0 b).map String.ofList

end ResumableQuery.Text
