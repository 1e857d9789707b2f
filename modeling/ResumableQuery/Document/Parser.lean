import ResumableQuery.Document.Basic
import ResumableQuery.Ordered

/-!
# Reading documents

The text of a document is JSON.  Of members with one name the last counts, and members are in order
of their names.  Every step of the reader takes at least one character, so as many steps as there
are characters suffice.
-/

namespace ResumableQuery.Document

/-- Whether a character may stand between the parts of a document. -/
def isGap (c : Char) : Bool := c = ' ' || c = '\t' || c = '\n' || c = '\r'

/-- The value of a hexadecimal digit. -/
def hexDigit? (c : Char) : Option Nat :=
  if c.isDigit then some (c.toNat - '0'.toNat)
  else if 'a' ≤ c ∧ c ≤ 'f' then some (c.toNat - 'a'.toNat + 10)
  else if 'A' ≤ c ∧ c ≤ 'F' then some (c.toNat - 'A'.toNat + 10)
  else none

/-- The number of four hexadecimal digits. -/
def readUnit (cs : List Char) : Option Nat :=
  if cs.length = 4 then cs.foldlM (fun n c => (hexDigit? c).map (16 * n + ·)) 0 else none

/-- The character that stands for itself or another one behind a backslash. -/
def escaped? : Char → Option Char
  | '"' => some '"'
  | '\\' => some '\\'
  | '/' => some '/'
  | 'b' => some '\x08'
  | 'f' => some '\x0c'
  | 'n' => some '\n'
  | 'r' => some '\r'
  | 't' => some '\t'
  | _ => none

/-- The character that a pair of surrogates stands for. -/
def ofSurrogates? (high low : Nat) : Option Char :=
  if 0xd800 ≤ high ∧ high < 0xdc00 ∧ 0xdc00 ≤ low ∧ low < 0xe000 then
    some (Char.ofNat (0x10000 + (high - 0xd800) * 0x400 + (low - 0xdc00)))
  else none

/-- The character of a code point that is no surrogate. -/
def ofUnit? (n : Nat) : Option Char := if n.isValidChar then some (Char.ofNat n) else none

/-- Reads a string to its closing quote; `before` is what was read, the last character first. -/
def readText (before : List Char) : List Char → Option (String × List Char)
  | '"' :: cs => some (String.ofList before.reverse, cs)
  | '\\' :: 'u' :: a :: b :: c :: d :: cs => do
    let high ← readUnit [a, b, c, d]
    match ofUnit? high, cs with
    | some x, cs => readText (x :: before) cs
    | none, '\\' :: 'u' :: a :: b :: c :: d :: cs =>
      readText ((← ofSurrogates? high (← readUnit [a, b, c, d])) :: before) cs
    | none, _ => none
  | '\\' :: c :: cs => do readText ((← escaped? c) :: before) cs
  | c :: cs => readText (c :: before) cs
  | [] => none

mutual

/-- Reads a document, and what follows it. -/
def readAny : (steps : Nat) → List Char → Option (Document × List Char)
  | 0, _ => none
  | steps + 1, cs =>
    match cs.dropWhile isGap with
    | 'n' :: 'u' :: 'l' :: 'l' :: cs => some (null, cs)
    | 't' :: 'r' :: 'u' :: 'e' :: cs => some (bool true, cs)
    | 'f' :: 'a' :: 'l' :: 's' :: 'e' :: cs => some (bool false, cs)
    | '"' :: cs => (readText [] cs).map fun (s, cs) => (text s, cs)
    | '[' :: cs =>
      match cs.dropWhile isGap with
      | ']' :: cs => some (list [], cs)
      | cs => readItems steps [] cs
    | '{' :: cs =>
      match cs.dropWhile isGap with
      | '}' :: cs => some (object [], cs)
      | cs => readMembers steps [] cs
    | cs =>
      let (number, cs) := cs.span fun c => c.isDigit || "+-.eE".contains c
      if number.isEmpty then none else some (ofLiteral (.ofChars number), cs)

/-- Reads the items of a list to its closing bracket; `before` are those that were read, the last
one first. -/
def readItems : (steps : Nat) → (before : List Document) → List Char → Option (Document × List Char)
  | 0, _, _ => none
  | steps + 1, before, cs => do
    let (d, cs) ← readAny steps cs
    match cs.dropWhile isGap with
    | ',' :: cs => readItems steps (d :: before) cs
    | ']' :: cs => some (list (d :: before).reverse, cs)
    | _ => none

/-- Reads the members of an object to its closing brace; `before` are those that were read, the
last one first. -/
def readMembers :
    (steps : Nat) → (before : List (String × Document)) → List Char → Option (Document × List Char)
  | 0, _, _ => none
  | steps + 1, before, cs =>
    match cs.dropWhile isGap with
    | '"' :: cs => do
      let (name, cs) ← readText [] cs
      match cs.dropWhile isGap with
      | ':' :: cs =>
        let (d, cs) ← readAny steps cs
        match cs.dropWhile isGap with
        | ',' :: cs => readMembers steps ((name, d) :: before) cs
        | '}' :: cs => some (object (Ordered.ofList ((name, d) :: before).reverse), cs)
        | _ => none
      | _ => none
    | _ => none

end

/-- The document that a text begins with. -/
def parse? (s : String) : Option Document :=
  (readAny (s.toList.length + 1) s.toList).map (·.1)

end ResumableQuery.Document
