import ResumableQuery.Expression.Value
import ResumableQuery.Proofs.Record

/-!
# Reading back expressions

Key expressions, types and values are read back from their wire forms.  Each of them is a tree, and
the reader of a tree goes one level of nesting deeper with every variant that holds further trees.
A variant number alone takes four bytes, so the length of the wire form bounds the nesting, and the
induction is on the depth that the reader is given.
-/

namespace ResumableQuery

/-! ### Key expressions -/

namespace KeyExpression

open Wire

theorem toWire_pos (e : KeyExpression) : 1 ≤ e.toWire.length := by
  cases e <;> simp only [toWire, List.length_append, length_word32] <;> omega

theorem allToWire_eq_flatMap (es : List KeyExpression) : allToWire es = es.flatMap toWire := by
  induction es with
  | nil => rfl
  | cons e es ih => rw [allToWire, ih, List.flatMap_cons]

theorem toWire_concat (es : List KeyExpression) :
    (concat es).toWire = word32 3 ++ list toWire es := by
  rw [toWire, allToWire_eq_flatMap, list]

theorem reads_readNested {depth : Nat} (e : KeyExpression) (h : e.toWire.length < 2 ^ 64)
    (hd : e.toWire.length < depth) : Reads (readNested depth) e.toWire e := by
  induction depth generalizing e with
  | zero => omega
  | succ depth ih =>
    rw [readNested]
    have hkind {n : Nat} (hn : n < 4) := reads_readVariant hn (by decide)
    cases e with
    | empty =>
      rw [toWire, ← List.append_nil (word32 0)]
      exact (hkind (by decide)).bind (reads_pure empty)
    | field name =>
      rw [toWire, List.length_append, length_text] at h
      exact (hkind (by decide)).bind ((reads_readText (by omega)).map field)
    | nest parent child =>
      rw [toWire, List.length_append, List.length_append, length_text, length_word32] at h hd
      rw [toWire, List.append_assoc]
      have hchild := (ih child (by omega) (by omega)).map (nest parent)
      exact (hkind (by decide)).bind ((reads_readText (by omega)).bind hchild)
    | concat es =>
      rw [toWire_concat, List.length_append, length_word32] at h hd
      rw [toWire_concat]
      have hes := reads_readList_of_length (r := readNested depth) (l := es) toWire_pos
        (by omega) fun e _ hle => ih e (by omega) (by omega)
      exact (hkind (by decide)).bind (hes.map concat)

theorem reads_ofWire {e : KeyExpression} (h : e.toWire.length < 2 ^ 64) :
    Reads ofWire e.toWire e := by
  intro rest
  refine reads_readNested e h ?_ rest
  rw [List.length_append]
  omega

end KeyExpression

/-! ### Types -/

namespace FieldType

open Wire

theorem fieldsToWire_eq_flatMap (fields : List (String × FieldType)) :
    fieldsToWire fields = fields.flatMap (named toWire) := by
  induction fields with
  | nil => rfl
  | cons e fields ih => rw [fieldsToWire, ih, List.flatMap_cons, named]

theorem toWire_record (fields : List (String × FieldType)) :
    (record fields).toWire = word32 7 ++ list (named toWire) fields := by
  rw [toWire, fieldsToWire_eq_flatMap, list]

theorem reads_readNested {depth : Nat} (t : FieldType) (h : t.toWire.length < 2 ^ 64)
    (hd : t.toWire.length < depth) : Reads (readNested depth) t.toWire t := by
  induction depth generalizing t with
  | zero => omega
  | succ depth ih =>
    rw [readNested]
    have hkind {n : Nat} (hn : n < 9) := reads_readVariant hn (by decide)
    cases t with
    | record fields =>
      rw [toWire_record, List.length_append, length_word32] at h hd
      rw [toWire_record]
      have hfields := reads_readList_of_length (r := readNamed (readNested depth)) (l := fields)
        (named_pos toWire) (by omega) fun e _ hle => by
          have hnamed := length_le_named toWire e
          exact reads_named (by omega) (ih e.2 (by omega) (by omega))
      exact (hkind (by decide)).bind (hfields.map record)
    | array element =>
      rw [toWire, List.length_append, length_word32] at h hd
      exact (hkind (by decide)).bind ((ih element (by omega) (by omega)).map array)
    -- What is left are the types that are a variant number and nothing else.
    | _ =>
      rw [toWire, ← List.append_nil (word32 _)]
      exact (hkind (by decide)).bind (reads_pure _)

theorem reads_ofWire {t : FieldType} (h : t.toWire.length < 2 ^ 64) :
    Reads ofWire t.toWire t := by
  intro rest
  refine reads_readNested t h ?_ rest
  rw [List.length_append]
  omega

end FieldType

/-! ### Values -/

namespace Value

open Wire

theorem itemsToWire_eq_flatMap (items : List (String × Value)) :
    itemsToWire items = items.flatMap (named toWire) := by
  induction items with
  | nil => rfl
  | cons e items ih => rw [itemsToWire, ih, List.flatMap_cons, named]

theorem toWire_columns (items : List (String × Value)) :
    (columns items).toWire = word32 3 ++ list (named toWire) items := by
  rw [toWire, itemsToWire_eq_flatMap, list]

theorem reads_readNested {depth : Nat} (v : Value) (h : v.toWire.length < 2 ^ 64)
    (hd : v.toWire.length < depth) : Reads (readNested depth) v.toWire v := by
  induction depth generalizing v with
  | zero => omega
  | succ depth ih =>
    rw [readNested]
    have hkind {n : Nat} (hn : n < 4) := reads_readVariant hn (by decide)
    cases v with
    | quantified name =>
      rw [toWire, List.length_append, length_text] at h
      exact (hkind (by decide)).bind ((reads_readText (by omega)).map quantified)
    | field child name type =>
      rw [toWire, List.length_append, List.length_append, List.length_append, length_text,
        length_word32] at h hd
      rw [toWire, List.append_assoc, List.append_assoc]
      have htype := (FieldType.reads_ofWire (t := type) (by omega)).map (field child name)
      have hname := (reads_readText (s := name) (by omega)).bind
        (f := fun name => do return field child name (← FieldType.ofWire)) htype
      exact (hkind (by decide)).bind ((ih child (by omega) (by omega)).bind hname)
    | literal v =>
      rw [toWire, List.length_append] at h
      exact (hkind (by decide)).bind ((TupleValue.reads_ofWire (by omega)).map literal)
    | columns items =>
      rw [toWire_columns, List.length_append, length_word32] at h hd
      rw [toWire_columns]
      have hitems := reads_readList_of_length (r := readNamed (readNested depth)) (l := items)
        (named_pos toWire) (by omega) fun e _ hle => by
          have hnamed := length_le_named toWire e
          exact reads_named (by omega) (ih e.2 (by omega) (by omega))
      exact (hkind (by decide)).bind (hitems.map columns)

theorem reads_ofWire {v : Value} (h : v.toWire.length < 2 ^ 64) : Reads ofWire v.toWire v := by
  intro rest
  refine reads_readNested v h ?_ rest
  rw [List.length_append]
  omega

end Value

end ResumableQuery
