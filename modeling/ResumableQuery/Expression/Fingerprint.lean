import ResumableQuery.Expression.Value

/-!
# Fingerprints

Where expressions are keys of a hash table, the table sees a byte string in which parts are marked
as briefly as possible: variants by their number, texts by a byte that no text holds, lists by their
length.  Equal expressions have equal fingerprints; expressions of different sorts may share one.
-/

namespace ResumableQuery

namespace Fingerprint

/-- A text and a byte that no text holds. -/
def text (s : String) : Bytes := Text.utf8 s ++ [0xFF]

/-- A length, or the number of a variant. -/
def number (n : Nat) : Bytes := littleEndian 8 n

end Fingerprint

open Fingerprint

mutual

/-- The fingerprint of a tuple element. -/
def TupleValue.fingerprint : TupleValue → Bytes
  | .null => [0]
  | .bytes b => 1 :: (number b.length ++ b)
  | .text s => 2 :: Fingerprint.text s
  | .nested t => 3 :: (number t.length ++ fingerprintAll t)
  | .int i => 4 :: number i.toUInt64.toNat
  | .float x => 5 :: number x.bits.toNat
  | .bool b => [6, if b then 1 else 0]

/-- The fingerprints of tuple elements. -/
def TupleValue.fingerprintAll : List TupleValue → Bytes
  | [] => []
  | v :: rest => v.fingerprint ++ fingerprintAll rest

end

/-- The fingerprint of a tuple. -/
def Tuple.fingerprint (t : Tuple) : Bytes := number t.length ++ TupleValue.fingerprintAll t

mutual

/-- The fingerprint of a type. -/
def FieldType.fingerprint : FieldType → Bytes
  | .any => number 0
  | .null => number 1
  | .bool => number 2
  | .int => number 3
  | .float => number 4
  | .text => number 5
  | .bytes => number 6
  | .record fields => number 7 ++ (number fields.length ++ fingerprintFields fields)
  | .array element => number 8 ++ element.fingerprint

/-- The fingerprints of typed fields. -/
def FieldType.fingerprintFields : List (String × FieldType) → Bytes
  | [] => []
  | (name, t) :: rest => Fingerprint.text name ++ t.fingerprint ++ fingerprintFields rest

end

mutual

/-- The fingerprint of a key expression. -/
def KeyExpression.fingerprint : KeyExpression → Bytes
  | .empty => number 0
  | .field name => number 1 ++ Fingerprint.text name
  | .nest parent child => number 2 ++ Fingerprint.text parent ++ child.fingerprint
  | .concat children => number 3 ++ (number children.length ++ fingerprintAll children)

/-- The fingerprints of key expressions. -/
def KeyExpression.fingerprintAll : List KeyExpression → Bytes
  | [] => []
  | e :: rest => e.fingerprint ++ fingerprintAll rest

end

mutual

/-- The fingerprint of a value. -/
def Value.fingerprint : Value → Bytes
  | .quantified name => number 0 ++ Fingerprint.text name
  | .field child name type =>
    number 1 ++ child.fingerprint ++ Fingerprint.text name ++ type.fingerprint
  | .literal v => number 2 ++ v.fingerprint
  | .columns items => number 3 ++ (number items.length ++ fingerprintItems items)

/-- The fingerprints of named columns. -/
def Value.fingerprintItems : List (String × Value) → Bytes
  | [] => []
  | (name, v) :: rest => Fingerprint.text name ++ v.fingerprint ++ fingerprintItems rest

end

end ResumableQuery
