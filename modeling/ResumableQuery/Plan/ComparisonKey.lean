import ResumableQuery.Error
import ResumableQuery.Expression.Fingerprint

/-!
# Comparison keys

The rows of a merge are compared by the tuple that a key expression yields for them, or by the tuple
of a value in which an alias stands for the row.  Two comparison keys are the same if their
expressions are, whatever the alias.
-/

namespace ResumableQuery

/-- By what the rows of a merge are compared. -/
inductive ComparisonKey where
  | onKey (expression : KeyExpression)
  /-- A value in which `base` stands for the row. -/
  | onValue (base : Alias) (value : Value)
  deriving Repr, Inhabited

namespace ComparisonKey

/-- Whether two keys have the same expression. -/
def same : ComparisonKey → ComparisonKey → Bool
  | onKey a, onKey b => a == b
  | onValue _ a, onValue _ b => a == b
  | _, _ => false

instance : BEq ComparisonKey := ⟨same⟩

/-- What a hash table sees of the key. -/
def fingerprint : ComparisonKey → Bytes
  | onKey e => e.fingerprint
  | onValue _ v => v.fingerprint

/-- The key of a row, given what other aliases stand for. -/
def evaluate (k : ComparisonKey) (bindings : Bindings) (row : Record) :
    Except EvaluationError Tuple :=
  match k with
  | onKey e => e.evaluate row
  | onValue base v => v.eval (bindings.bind base row)

/-- The key as a reader sees it. -/
def display : ComparisonKey → String
  | onKey e => e.display
  | onValue _ v => v.display

/-- The key of a row of a merge. -/
def ofRow (k : ComparisonKey) (bindings : Bindings) (row : Record) : Except CursorError Tuple :=
  (k.evaluate bindings row).mapError fun e =>
    (CursorError.ofCause (.evaluation e)).add "comparison_key" k.display

/-- Hash of the key; aliases do not count. -/
def hash : ComparisonKey → UInt64
  | onKey e => Digest.hash64 (Wire.text "on_key_expression" ++ e.toWire)
  | onValue _ v => Digest.hash64 (Wire.text "on_value" ++ Wire.word64 v.hash.toNat)

end ComparisonKey

end ResumableQuery
