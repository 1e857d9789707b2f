import ResumableQuery.Proofs.Ordered
import ResumableQuery.Proofs.Position
import ResumableQuery.Proofs.Text.Utf8
import ResumableQuery.RecordStore

/-!
# Reading back records

A record is read back from its wire form (`RecordStore.decode_toWire`).  Elements and field values
nest, and each level of nesting takes twelve bytes of the wire form, so a depth above the length of
the wire form is enough to read them.  Lengths and counts are written as words of eight bytes; all
of them are right if the wire form as a whole is shorter than `2 ^ 64` bytes.  Fields are read into
the order of their names, so those of a record and of the messages in it have to be in that order.
-/

namespace ResumableQuery

/-! ### Texts, truth values and variants -/

namespace Wire

theorem reads_readText {s : String} (h : (Text.utf8 s).length < 2 ^ 64) :
    Reads readText (text s) s := by
  refine (reads_readWord (n := 8) (x := (Text.utf8 s).length) (by omega)).bind fun rest => ?_
  show (if ((Text.utf8 s ++ rest).take (Text.utf8 s).length).length = (Text.utf8 s).length then _
    else _ : Reader String) (Text.utf8 s ++ rest) = _
  rw [List.take_left, if_pos rfl, Text.ofUtf8_eq_ok_iff.2 rfl]
  show Except.ok (s, (Text.utf8 s ++ rest).drop (Text.utf8 s).length) = _
  rw [List.drop_left]

theorem reads_readTruth (b : Bool) : Reads readTruth (truth b) b := by
  cases b <;> exact fun _ => rfl

theorem reads_readVariant {n count : Nat} (h : n < count) (hcount : count ≤ 256) :
    Reads (readVariant count) (word32 n) n := by
  have hread := (reads_readWord (n := 4) (x := n) (by omega)).bind
    (f := fun n => if n < count then pure n else fail (.variant n count)) (c := []) (y := n)
  rw [if_pos h, List.append_nil] at hread
  exact hread (reads_pure n)

theorem length_text (s : String) : (text s).length = 8 + (Text.utf8 s).length := length_blob _

/-- The wire form of a value under its name. -/
def named (write : α → Bytes) (e : String × α) : Bytes := text e.1 ++ write e.2

theorem length_named (write : α → Bytes) (e : String × α) :
    (named write e).length = 8 + (Text.utf8 e.1).length + (write e.2).length := by
  rw [named, List.length_append, length_text]

theorem named_pos (write : α → Bytes) (e : String × α) : 1 ≤ (named write e).length := by
  rw [length_named]
  omega

theorem length_le_named (write : α → Bytes) (e : String × α) :
    (write e.2).length ≤ (named write e).length := by
  rw [length_named]
  omega

theorem reads_named {read : Reader α} {write : α → Bytes} {e : String × α}
    (h : (named write e).length < 2 ^ 64) (hread : Reads read (write e.2) e.2) :
    Reads (do return (← readText, ← read)) (named write e) e := by
  rw [length_named] at h
  exact (reads_readText (by omega)).bind (hread.map (e.1, ·))

theorem length_word32 (n : Nat) : (word32 n).length = 4 := littleEndian_length 4 n

theorem length_word64 (n : Nat) : (word64 n).length = 8 := littleEndian_length 8 n

theorem length_le_of_mem (write : α → Bytes) {x : α} {xs : List α} (h : x ∈ xs) :
    (write x).length ≤ (xs.flatMap write).length := by
  obtain ⟨front, back, rfl⟩ := List.append_of_mem h
  rw [List.flatMap_append, List.flatMap_cons, List.length_append, List.length_append]
  omega

theorem length_le_of_forall {write : α → Bytes} (h : ∀ x, 1 ≤ (write x).length) (xs : List α) :
    xs.length ≤ (xs.flatMap write).length := by
  induction xs with
  | nil => exact Nat.le_refl 0
  | cons x xs ih =>
    have hx := h x
    rw [List.flatMap_cons, List.length_append, List.length_cons]
    omega

/-- A list is read back if what is written for it is not too long. -/
theorem reads_readList_of_length {r : Reader α} {write : α → Bytes} {l : List α}
    (hpos : ∀ x, 1 ≤ (write x).length) (h : (list write l).length < 2 ^ 64)
    (each : ∀ x ∈ l, (write x).length + 8 ≤ (list write l).length → Reads r (write x) x) :
    Reads (readList r) (list write l) l := by
  have hcount := length_le_of_forall hpos l
  rw [list, List.length_append, length_word64] at h each
  refine reads_readList (by omega) fun x hx => each x hx ?_
  have := length_le_of_mem write hx
  omega

end Wire

/-! ### Elements -/

namespace TupleValue

open Wire

theorem toWire_pos (v : TupleValue) : 1 ≤ v.toWire.length := by
  cases v <;> simp only [toWire, List.length_append, length_word32] <;> omega

theorem allToWire_eq_flatMap (vs : List TupleValue) : allToWire vs = vs.flatMap toWire := by
  induction vs with
  | nil => rfl
  | cons v vs ih => rw [allToWire, ih, List.flatMap_cons]

theorem toWire_nested (vs : List TupleValue) :
    (nested vs).toWire = word32 3 ++ list toWire vs := by
  rw [toWire, allToWire_eq_flatMap, list]

theorem reads_readNested {depth : Nat} (v : TupleValue) (h : v.toWire.length < 2 ^ 64)
    (hd : v.toWire.length < depth) : Reads (readNested depth) v.toWire v := by
  induction depth generalizing v with
  | zero => omega
  | succ depth ih =>
    rw [readNested]
    have hkind {n : Nat} (hn : n < 7) := reads_readVariant hn (by decide)
    cases v with
    | null =>
      rw [toWire, ← List.append_nil (word32 0)]
      exact (hkind (by decide)).bind (reads_pure null)
    | bytes b =>
      rw [toWire, List.length_append, length_blob] at h
      exact (hkind (by decide)).bind ((reads_readBlob (by omega)).map bytes)
    | text s =>
      rw [toWire, List.length_append, length_text] at h
      exact (hkind (by decide)).bind ((reads_readText (by omega)).map text)
    | nested vs =>
      rw [toWire_nested, List.length_append, length_word32] at h hd
      rw [toWire_nested]
      have hvs := reads_readList_of_length (r := readNested depth) (l := vs) toWire_pos
        (by omega) fun v _ hle => ih v (by omega) (by omega)
      exact (hkind (by decide)).bind (hvs.map nested)
    | int i =>
      have hi := i.toUInt64.toNat_lt
      have hword := (reads_readWord (n := 8) (x := i.toUInt64.toNat) (by omega)).map
        fun n => int (UInt64.ofNat n).toInt64
      rw [UInt64.ofNat_toNat] at hword
      exact (hkind (by decide)).bind hword
    | float x =>
      have hx := x.bits.toNat_lt
      have hword := (reads_readWord (n := 8) (x := x.bits.toNat) (by omega)).map
        fun n => float ⟨UInt64.ofNat n⟩
      rw [UInt64.ofNat_toNat] at hword
      exact (hkind (by decide)).bind hword
    | bool b => exact (hkind (by decide)).bind ((reads_readTruth b).map bool)

theorem reads_ofWire {v : TupleValue} (h : v.toWire.length < 2 ^ 64) :
    Reads ofWire v.toWire v := by
  intro rest
  refine reads_readNested v h ?_ rest
  rw [List.length_append]
  omega

end TupleValue

namespace Tuple

open Wire

theorem toWire_eq_list (t : Tuple) : t.toWire = list TupleValue.toWire t := by
  rw [toWire, TupleValue.allToWire_eq_flatMap, list]

theorem reads_ofWire {t : Tuple} (h : t.toWire.length < 2 ^ 64) : Reads ofWire t.toWire t := by
  rw [toWire_eq_list] at h ⊢
  exact reads_readList_of_length TupleValue.toWire_pos h fun v _ hle =>
    TupleValue.reads_ofWire (by omega)

end Tuple

/-! ### Field values -/

namespace FieldValue

open Wire

mutual

/-- In all messages of a field value the fields are in order of their names. -/
def InOrder : FieldValue → Prop
  | scalar _ => True
  | message fields => Ordered.Sorted fields ∧ FieldsInOrder fields
  | repeated items => ItemsInOrder items

/-- In all messages of some fields the fields are in order of their names. -/
def FieldsInOrder : List (String × FieldValue) → Prop
  | [] => True
  | (_, f) :: rest => f.InOrder ∧ FieldsInOrder rest

/-- In all messages of some items the fields are in order of their names. -/
def ItemsInOrder : List FieldValue → Prop
  | [] => True
  | f :: rest => f.InOrder ∧ ItemsInOrder rest

end

/-- The wire form of a field value under its name. -/
def namedToWire (e : String × FieldValue) : Bytes := text e.1 ++ e.2.toWire

theorem toWire_pos (f : FieldValue) : 1 ≤ f.toWire.length := by
  cases f <;> simp only [toWire, List.length_append, length_word32] <;> omega

theorem namedToWire_pos (e : String × FieldValue) : 1 ≤ (namedToWire e).length :=
  named_pos toWire e

theorem length_toWire_le_named (e : String × FieldValue) :
    e.2.toWire.length ≤ (namedToWire e).length :=
  length_le_named toWire e

theorem fieldsToWire_eq_flatMap (fields : List (String × FieldValue)) :
    fieldsToWire fields = fields.flatMap namedToWire := by
  induction fields with
  | nil => rfl
  | cons e fields ih => rw [fieldsToWire, ih, List.flatMap_cons, namedToWire]

theorem itemsToWire_eq_flatMap (items : List FieldValue) :
    itemsToWire items = items.flatMap toWire := by
  induction items with
  | nil => rfl
  | cons f items ih => rw [itemsToWire, ih, List.flatMap_cons]

theorem toWire_message (fields : List (String × FieldValue)) :
    (message fields).toWire = word32 1 ++ list namedToWire fields := by
  rw [toWire, fieldsToWire_eq_flatMap, list]

theorem toWire_repeated (items : List FieldValue) :
    (repeated items).toWire = word32 2 ++ list toWire items := by
  rw [toWire, itemsToWire_eq_flatMap, list]

theorem reads_readNamed {read : Reader FieldValue} {e : String × FieldValue}
    (h : (namedToWire e).length < 2 ^ 64) (hread : Reads read e.2.toWire e.2) :
    Reads (readNamed read) (namedToWire e) e :=
  reads_named h hread

theorem FieldsInOrder.of_mem {fields : List (String × FieldValue)} (ho : FieldsInOrder fields)
    {e : String × FieldValue} (he : e ∈ fields) : e.2.InOrder := by
  induction fields with
  | nil => cases he
  | cons e' rest ih =>
    rw [FieldsInOrder] at ho
    rcases List.mem_cons.1 he with rfl | he
    · exact ho.1
    · exact ih ho.2 he

theorem ItemsInOrder.of_mem {items : List FieldValue} (ho : ItemsInOrder items) {f : FieldValue}
    (hf : f ∈ items) : f.InOrder := by
  induction items with
  | nil => cases hf
  | cons g rest ih =>
    rw [ItemsInOrder] at ho
    rcases List.mem_cons.1 hf with rfl | hf
    · exact ho.1
    · exact ih ho.2 hf

theorem reads_readNested {depth : Nat} (f : FieldValue) (ho : f.InOrder)
    (h : f.toWire.length < 2 ^ 64) (hd : f.toWire.length < depth) :
    Reads (readNested depth) f.toWire f := by
  induction depth generalizing f with
  | zero => omega
  | succ depth ih =>
    rw [readNested]
    have hkind {n : Nat} (hn : n < 3) := reads_readVariant hn (by decide)
    cases f with
    | scalar v =>
      rw [toWire, List.length_append, length_word32] at h
      exact (hkind (by decide)).bind ((TupleValue.reads_ofWire (by omega)).map scalar)
    | message fields =>
      rw [InOrder] at ho
      rw [toWire_message, List.length_append, length_word32] at h hd
      rw [toWire_message]
      have hfields := reads_readList_of_length (r := readNamed (readNested depth))
        (l := fields) namedToWire_pos (by omega) fun e he hle => by
          have hvalue := length_toWire_le_named e
          exact reads_readNamed (by omega) (ih e.2 (ho.2.of_mem he) (by omega) (by omega))
      have hmessage := hfields.map fun fields => message (Ordered.ofList fields)
      rw [ho.1.ofList_eq] at hmessage
      exact (hkind (by decide)).bind hmessage
    | repeated items =>
      rw [InOrder] at ho
      rw [toWire_repeated, List.length_append, length_word32] at h hd
      rw [toWire_repeated]
      have hitems := reads_readList_of_length (r := readNested depth) (l := items) toWire_pos
        (by omega) fun f hf hle => ih f (ho.of_mem hf) (by omega) (by omega)
      exact (hkind (by decide)).bind (hitems.map repeated)

theorem reads_ofWire {f : FieldValue} (ho : f.InOrder) (h : f.toWire.length < 2 ^ 64) :
    Reads ofWire f.toWire f := by
  intro rest
  refine reads_readNested f ho h ?_ rest
  rw [List.length_append]
  omega

end FieldValue

/-! ### Records -/

namespace Record

open Wire

/-- What a record has to be for its wire form to say all of it: the fields of the record and of all
messages in it are in order of their names, and the wire form is shorter than `2 ^ 64` bytes. -/
structure WellFormed (r : Record) : Prop where
  sorted : Ordered.Sorted r.fields
  inOrder : FieldValue.FieldsInOrder r.fields
  fits : r.toWire.length < 2 ^ 64

theorem toWire_eq (r : Record) :
    r.toWire =
      text r.recordType ++ (r.primaryKey.toWire ++ list FieldValue.namedToWire r.fields) := by
  rw [toWire, FieldValue.fieldsToWire_eq_flatMap, list, List.append_assoc]

theorem WellFormed.reads_ofWire {r : Record} (h : r.WellFormed) : Reads ofWire r.toWire r := by
  have hfits := h.fits
  rw [toWire_eq, List.length_append, List.length_append, length_text] at hfits
  rw [toWire_eq]
  have hfields := reads_readList_of_length (r := FieldValue.readNamed FieldValue.ofWire)
    (l := r.fields) FieldValue.namedToWire_pos (by omega) fun e he hle => by
      have hvalue := FieldValue.length_toWire_le_named e
      have hread := FieldValue.reads_ofWire (h.inOrder.of_mem he) (by omega)
      exact FieldValue.reads_readNamed (by omega) hread
  have hrecord := hfields.map fun fields =>
    Record.mk r.recordType r.primaryKey (Ordered.ofList fields)
  rw [h.sorted.ofList_eq] at hrecord
  exact (reads_readText (by omega)).bind ((Tuple.reads_ofWire (by omega)).bind hrecord)

end Record

/-- A record is read back from what is stored for it. -/
theorem RecordStore.decode_toWire {r : Record} (h : r.WellFormed) : decode r.toWire = .ok r := by
  rw [decode, h.reads_ofWire.decode]
  rfl

end ResumableQuery
