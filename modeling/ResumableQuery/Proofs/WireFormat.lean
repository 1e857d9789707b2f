import ResumableQuery.IndexEntry
import ResumableQuery.Range
import ResumableQuery.Proofs.Expression.Wire

/-!
# Everything that is written is read back

Every type with a wire form is kept by it (`WireFormat.lossless`): a value is read off the front of
any byte string that begins with its wire form, nothing more is taken, and it is the position of a
continuation that carries its wire form.  Positions of nested iterations and of merges hold the
continuations of other cursors, whose positions may again hold continuations; `Nested` is such a
continuation taken apart and `Shape.read` takes it apart along the cursors it is made for.

Lengths are written as words of eight bytes, so wire forms have to be shorter than `2 ^ 64` bytes,
as every byte string is that a machine of that word length can hold.
-/

namespace ResumableQuery

/-! ### Ranges and index entries -/

namespace Endpoint

open Wire

theorem reads_ofWire {e : Endpoint} (h : e.toWire.length < 2 ^ 64) : Reads ofWire e.toWire e := by
  have hkind {n : Nat} (hn : n < 3) := reads_readVariant hn (by decide)
  cases e with
  | unbounded =>
    rw [toWire, ← List.append_nil (word32 0)]
    exact (hkind (by decide)).bind (reads_pure unbounded)
  | inclusive t =>
    rw [toWire, List.length_append] at h
    exact (hkind (by decide)).bind ((Tuple.reads_ofWire (by omega)).map inclusive)
  | exclusive t =>
    rw [toWire, List.length_append] at h
    exact (hkind (by decide)).bind ((Tuple.reads_ofWire (by omega)).map exclusive)

end Endpoint

theorem TupleRange.reads_ofWire {r : TupleRange} (h : r.toWire.length < 2 ^ 64) :
    Wire.Reads ofWire r.toWire r := by
  rw [toWire, List.length_append] at h
  have high := (Endpoint.reads_ofWire (e := r.high) (by omega)).map (TupleRange.mk r.low)
  exact (Endpoint.reads_ofWire (by omega)).bind high

theorem IndexEntry.reads_ofWire {e : IndexEntry} (h : e.toWire.length < 2 ^ 64) :
    Wire.Reads ofWire e.toWire e := by
  rw [toWire, List.length_append, List.length_append, List.length_append, Wire.length_text] at h
  have primaryKey : ∀ t ∈ e.primaryKey, Wire.Reads Tuple.ofWire t.toWire t := by
    intro t ht
    rw [ht, Wire.optional, List.length_cons] at h
    exact Tuple.reads_ofWire (by omega)
  rw [toWire, List.append_assoc, List.append_assoc]
  have key : Wire.Reads Tuple.ofWire e.key.toWire e.key := Tuple.reads_ofWire (by omega)
  have value : Wire.Reads Tuple.ofWire e.value.toWire e.value := Tuple.reads_ofWire (by omega)
  exact (Wire.reads_readText (by omega)).bind
    (key.bind (value.bind ((Wire.reads_readOptional primaryKey).map _)))

/-! ### Positions that hold other continuations -/

theorem KeyPosition.reads_of_length {p : KeyPosition} (h : p.toWire.length < 2 ^ 64) :
    Wire.Reads ofWire p.toWire p := by
  rw [toWire, Wire.length_blob] at h
  exact reads_ofWire (by omega)

namespace FlatMapPosition

theorem length_outer_le (p : FlatMapPosition) : p.outer.length ≤ p.toWire.length := by
  rw [toWire, List.length_append, List.length_append, Wire.length_blob]
  omega

theorem length_inner_le (p : FlatMapPosition) : p.inner.length ≤ p.toWire.length := by
  rw [toWire, List.length_append, Wire.length_blob p.inner]
  omega

theorem length_check_le (p : FlatMapPosition) {b : Bytes} (hb : b ∈ p.check) :
    b.length ≤ p.toWire.length := by
  rw [toWire, hb, List.length_append, List.length_append, Wire.optional, List.length_cons,
    Wire.length_blob b]
  omega

theorem reads_of_length {p : FlatMapPosition} (h : p.toWire.length < 2 ^ 64) :
    Wire.Reads ofWire p.toWire p := by
  have outer := p.length_outer_le
  have inner := p.length_inner_le
  refine reads_ofWire (by omega) (fun b hb => ?_) (by omega)
  have check := p.length_check_le hb
  omega

end FlatMapPosition

namespace MergePosition

theorem length_le_of_mem (p : MergePosition) {b : Bytes} (hb : b ∈ p.legs) :
    b.length ≤ p.toWire.length := by
  have hleg := Wire.length_le_of_mem Wire.blob hb
  rw [Wire.length_blob] at hleg
  rw [toWire, Wire.list, List.length_append, List.length_append]
  omega

theorem length_legs_le (p : MergePosition) : p.legs.length ≤ p.toWire.length := by
  have hlegs : p.legs.length ≤ (p.legs.flatMap Wire.blob).length :=
    Wire.length_le_of_forall (fun b => by rw [Wire.length_blob]; omega) p.legs
  rw [toWire, Wire.list, List.length_append, List.length_append]
  omega

theorem reads_of_length {p : MergePosition} (h : p.toWire.length < 2 ^ 64) :
    Wire.Reads ofWire p.toWire p := by
  have count := p.length_legs_le
  refine reads_ofWire (by omega) fun b hb => ?_
  have leg := p.length_le_of_mem hb
  omega

end MergePosition

/-! ### Continuations within continuations -/

/-- A continuation taken apart into the continuations that it holds. -/
inductive Nested where
  /-- A continuation that is not looked into. -/
  | plain (c : Continuation)
  /-- A position in a nested iteration. -/
  | flatMap (outer : Nested) (check : Option Bytes) (inner : Nested)
  /-- A position in a merge. -/
  | merge (planHash : UInt64) (legs : List Nested)

/-- How a cursor is built from others that have continuations of their own. -/
inductive Shape where
  | source
  | flatMap (outer inner : Shape)
  | merge (legs : List Shape)

namespace Nested

mutual

/-- The continuation, put together. -/
def token : Nested → Continuation
  | plain c => c
  | flatMap outer check inner => (FlatMapPosition.of outer.token check inner.token).toContinuation
  | merge planHash legs => (MergePosition.of planHash (tokens legs)).toContinuation

/-- Several continuations, put together. -/
def tokens : List Nested → List Continuation
  | [] => []
  | n :: rest => n.token :: tokens rest

end

mutual

/-- Whether a continuation is one of a cursor of some shape.  A cursor that is built from others
also has continuations without a position: before its first row and after it has run dry. -/
def OfShape : Nested → Shape → Prop
  | plain _, .source => True
  | plain c, _ => c.payload? = none
  | flatMap outer _ inner, .flatMap outerShape innerShape =>
    outer.OfShape outerShape ∧ inner.OfShape innerShape
  | merge _ legs, .merge shapes => AllOfShape legs shapes
  | _, _ => False

/-- Whether continuations are those of legs of some shapes. -/
def AllOfShape : List Nested → List Shape → Prop
  | [], [] => True
  | n :: ns, s :: ss => n.OfShape s ∧ AllOfShape ns ss
  | _, _ => False

end

end Nested

namespace Shape

mutual

/-- Takes a continuation apart along the cursors it is made for. -/
def read : Shape → Continuation → Except DecodeError Nested
  | source, c => return .plain c
  | flatMap outer inner, c => do
    match ← c.position FlatMapPosition.ofWire with
    | none => return .plain c
    | some p =>
      let outer ← outer.read (← Continuation.ofBytes p.outer)
      let inner ← inner.read (← Continuation.ofBytes p.inner)
      return .flatMap outer p.check inner
  | merge legs, c => do
    match ← c.position MergePosition.ofWire with
    | none => return .plain c
    | some p => return .merge p.planHash (← readAll legs (← p.continuations))

/-- Takes the continuations of legs apart. -/
def readAll : List Shape → List Continuation → Except DecodeError (List Nested)
  | s :: shapes, c :: cs => do
    let first ← s.read c
    let others ← readAll shapes cs
    return first :: others
  | _, _ => return []

end

end Shape

namespace Nested

theorem position_of_payload?_eq_none {read : Wire.Reader α} {c : Continuation}
    (h : c.payload? = none) : c.position read = .ok none := by
  cases c with
  | resume payload => cases h
  | _ => rfl

mutual

/-- At every level of nesting, a continuation comes back as it was put together. -/
theorem read_token (n : Nested) (s : Shape) (h : n.OfShape s)
    (short : n.token.toBytes.length < 2 ^ 64) : s.read n.token = .ok n := by
  cases n with
  | plain c =>
    cases s with
    | source => rfl
    | _ => rw [token, Shape.read, position_of_payload?_eq_none h]; rfl
  | flatMap outer check inner =>
    cases s with
    | flatMap outerShape innerShape =>
      rw [token, FlatMapPosition.toContinuation, Continuation.toBytes, List.length_cons] at short
      have position := FlatMapPosition.reads_of_length
        (p := .of outer.token check inner.token) (by omega)
      have houter : outer.token.toBytes.length ≤ _ :=
        FlatMapPosition.length_outer_le (.of outer.token check inner.token)
      have hinner : inner.token.toBytes.length ≤ _ :=
        FlatMapPosition.length_inner_le (.of outer.token check inner.token)
      have readOuter := read_token outer outerShape h.1 (by omega)
      have readInner := read_token inner innerShape h.2 (by omega)
      rw [token, Shape.read, FlatMapPosition.toContinuation, Continuation.position_resume position,
        FlatMapPosition.of]
      show (Continuation.ofBytes outer.token.toBytes >>= _) = _
      rw [Continuation.ofBytes_toBytes, Continuation.ofBytes_toBytes]
      show (outerShape.read outer.token >>= fun o => innerShape.read inner.token >>= fun i =>
        .ok (Nested.flatMap o check i)) = _
      rw [readOuter, readInner]
      rfl
    | _ => exact h.elim
  | merge planHash legs =>
    cases s with
    | merge shapes =>
      rw [token, MergePosition.toContinuation, Continuation.toBytes, List.length_cons] at short
      have position := MergePosition.reads_of_length (p := .of planHash (tokens legs)) (by omega)
      have readLegs := readAll_tokens legs shapes h fun t ht => by
        have := MergePosition.length_le_of_mem (.of planHash (tokens legs))
          (List.mem_map_of_mem ht)
        omega
      rw [token, Shape.read, MergePosition.toContinuation, Continuation.position_resume position]
      show ((MergePosition.of planHash (tokens legs)).continuations >>= fun cs =>
        Shape.readAll shapes cs >>= fun ns => .ok (Nested.merge planHash ns)) = _
      rw [MergePosition.continuations_of]
      show (Shape.readAll shapes (tokens legs) >>= _) = _
      rw [readLegs]
      rfl
    | _ => exact h.elim

theorem readAll_tokens (ns : List Nested) (ss : List Shape) (h : AllOfShape ns ss)
    (short : ∀ t ∈ tokens ns, t.toBytes.length < 2 ^ 64) :
    Shape.readAll ss (tokens ns) = .ok ns := by
  cases ns with
  | nil => cases ss <;> rfl
  | cons n ns =>
    cases ss with
    | nil => exact h.elim
    | cons s ss =>
      rw [tokens] at short
      have first := read_token n s h.1 (short _ List.mem_cons_self)
      have others := readAll_tokens ns ss h.2 fun t ht => short t (List.mem_cons_of_mem _ ht)
      rw [tokens, Shape.readAll, first]
      show (Shape.readAll ss (tokens ns) >>= _) = _
      rw [others]
      rfl

end

end Nested

/-! ### All types -/

/-- A value is kept by its wire form. -/
structure Wire.Keeps (read : Wire.Reader α) (write : α → Bytes) (x : α) : Prop where
  /-- Whatever follows the wire form, the value is read and what follows is left. -/
  reads : ∀ rest, read (write x ++ rest) = .ok (x, rest)
  /-- The value is the position of the continuation that carries its wire form. -/
  position : (Continuation.resume (write x)).position read = .ok (some x)

theorem Wire.Reads.keeps {read : Wire.Reader α} {write : α → Bytes} {x : α}
    (h : Wire.Reads read (write x) x) : Wire.Keeps read write x :=
  ⟨h, Continuation.position_resume h⟩

namespace WireFormat

open Wire

/-- Every value of every type is kept by its wire form, and continuations within continuations come
back from any depth.  Of records, `Record.WellFormed` asks that fields are in order of their names,
since the fields of a record and of its messages form a map. -/
structure Lossless : Prop where
  listPosition (p : ListPosition) : Keeps ListPosition.ofWire ListPosition.toWire p
  keyPosition (p : KeyPosition) : p.toWire.length < 2 ^ 64 →
    Keeps KeyPosition.ofWire KeyPosition.toWire p
  flatMapPosition (p : FlatMapPosition) : p.toWire.length < 2 ^ 64 →
    Keeps FlatMapPosition.ofWire FlatMapPosition.toWire p
  mergePosition (p : MergePosition) : p.toWire.length < 2 ^ 64 →
    Keeps MergePosition.ofWire MergePosition.toWire p
  scoreDoc (p : ScoreDoc) : Keeps ScoreDoc.ofWire ScoreDoc.toWire p
  tuple (t : Tuple) : t.toWire.length < 2 ^ 64 → Keeps Tuple.ofWire Tuple.toWire t
  tupleRange (r : TupleRange) : r.toWire.length < 2 ^ 64 →
    Keeps TupleRange.ofWire TupleRange.toWire r
  indexEntry (e : IndexEntry) : e.toWire.length < 2 ^ 64 →
    Keeps IndexEntry.ofWire IndexEntry.toWire e
  record (r : Record) : r.WellFormed → Keeps Record.ofWire Record.toWire r
  keyExpression (e : KeyExpression) : e.toWire.length < 2 ^ 64 →
    Keeps KeyExpression.ofWire KeyExpression.toWire e
  fieldType (t : FieldType) : t.toWire.length < 2 ^ 64 →
    Keeps FieldType.ofWire FieldType.toWire t
  value (v : Value) : v.toWire.length < 2 ^ 64 → Keeps Value.ofWire Value.toWire v
  nested (n : Nested) (s : Shape) : n.OfShape s → n.token.toBytes.length < 2 ^ 64 →
    s.read n.token = .ok n

theorem lossless : Lossless where
  listPosition p := p.reads_ofWire.keeps
  keyPosition _ h := (KeyPosition.reads_of_length h).keeps
  flatMapPosition _ h := (FlatMapPosition.reads_of_length h).keeps
  mergePosition _ h := (MergePosition.reads_of_length h).keeps
  scoreDoc p := p.reads_ofWire.keeps
  tuple _ h := (Tuple.reads_ofWire h).keeps
  tupleRange _ h := (TupleRange.reads_ofWire h).keeps
  indexEntry _ h := (IndexEntry.reads_ofWire h).keeps
  record _ h := h.reads_ofWire.keeps
  keyExpression _ h := (KeyExpression.reads_ofWire h).keeps
  fieldType _ h := (FieldType.reads_ofWire h).keeps
  value _ h := (Value.reads_ofWire h).keeps
  nested := Nested.read_token

/-- Two columns: a literal and the lines in the body of a note. -/
def sampleValue : Value :=
  .columns [("kind", .literal (.text "note")),
    ("lines", .field (.field (.quantified "n") "body" (.record [("lines", .array .int)])) "lines"
      (.array .int))]

/-- A note with lines in its body. -/
def sampleRecord : Record :=
  ⟨"note", [.int 1, .null], [("body", .message [("lines", .repeated [.scalar (.int 7)])])]⟩

theorem wellFormed_sampleRecord : sampleRecord.WellFormed where
  sorted := List.pairwise_singleton _ _
  inOrder :=
    ⟨⟨List.pairwise_singleton _ _, ⟨trivial, trivial⟩, trivial⟩, trivial⟩
  fits := by decide +kernel

/-- A merge of a finished leg and of a nested iteration over a merge that has not begun. -/
def sampleNested : Nested :=
  .merge 7 [.plain .done, .flatMap (.plain .start) (some [1, 2]) (.plain (.resume [3, 0]))]

theorem lossless_sample :
    Value.ofWire (sampleValue.toWire ++ [9]) = .ok (sampleValue, [9]) ∧
      Record.ofWire (sampleRecord.toWire ++ [0, 9]) = .ok (sampleRecord, [0, 9]) ∧
      (Shape.merge [.source, .flatMap (.merge []) .source]).read sampleNested.token =
        .ok sampleNested := by
  refine ⟨?_, ?_, ?_⟩
  · exact (lossless.value sampleValue (by decide +kernel)).reads [9]
  · exact (lossless.record sampleRecord wellFormed_sampleRecord).reads [0, 9]
  · exact lossless.nested sampleNested _ ⟨trivial, ⟨rfl, trivial⟩, trivial⟩ (by decide +kernel)

end WireFormat

end ResumableQuery
