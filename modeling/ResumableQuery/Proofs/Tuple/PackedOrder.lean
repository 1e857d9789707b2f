import Mathlib.Logic.Function.Basic
import ResumableQuery.Proofs.Tuple.WordOrder

/-!
# Order of packed tuples

The byte strings of packed tuples compare as the tuples do (`compare_pack`).  An element is not
compared on its own but together with what follows it: `compare_pack_append` says that two packed
elements, each followed by bytes that do not begin with `0xFF`, compare by the elements first and
then by the rests.  No packed element and no closing byte begins with `0xFF`, so the rest may always
be what comes next in a packed tuple, or nothing.

Since only equal elements compare as equal, packing loses nothing, and the order of tuples is a
total order because that of byte strings is one.
-/

namespace ResumableQuery

/-! ### Rests -/

/-- The byte string does not begin with the byte that follows an escaped zero. -/
def Unescaped (s : Bytes) : Prop := s.head? ≠ some TupleValue.escape

theorem unescaped_nil : Unescaped [] := by simp [Unescaped]

theorem unescaped_cons {b : UInt8} {s : Bytes} (h : b ≠ TupleValue.escape) :
    Unescaped (b :: s) := by
  simpa [Unescaped] using h

theorem compare_escape_of_unescaped {s : Bytes} (h : Unescaped s) (t : Bytes) :
    compare s (TupleValue.escape :: t) = .lt ∧ compare (TupleValue.escape :: t) s = .gt := by
  cases s with
  | nil => exact ⟨rfl, rfl⟩
  | cons b s =>
    have hne : b ≠ TupleValue.escape := by simpa [Unescaped] using h
    have hlt : b < TupleValue.escape := by
      rw [UInt8.lt_iff_toNat_lt]
      have hb := b.toNat_lt
      have hn : b.toNat ≠ TupleValue.escape.toNat := mt UInt8.toNat_inj.1 hne
      have he : TupleValue.escape.toNat = 255 := rfl
      omega
    constructor
    · rw [List.compare_cons_cons, Std.compare_eq_lt.2 hlt]
      rfl
    · rw [List.compare_cons_cons, Std.compare_eq_gt.2 hlt]
      rfl

theorem compare_zero_cons_of_ne {b : UInt8} (h : b ≠ 0) (s t : Bytes) :
    compare (0 :: s) (b :: t) = .lt ∧ compare (b :: t) (0 :: s) = .gt := by
  have hlt : (0 : UInt8) < b := by
    rw [UInt8.lt_iff_toNat_lt]
    have hn : b.toNat ≠ (0 : UInt8).toNat := mt UInt8.toNat_inj.1 h
    have h0 : (0 : UInt8).toNat = 0 := rfl
    omega
  constructor
  · rw [List.compare_cons_cons, Std.compare_eq_lt.2 hlt]
    rfl
  · rw [List.compare_cons_cons, Std.compare_eq_gt.2 hlt]
    rfl

theorem compare_cons_self (b : UInt8) (s t : Bytes) : compare (b :: s) (b :: t) = compare s t := by
  rw [List.compare_cons_cons, Std.compare_self, Ordering.eq_then]

namespace TupleValue

/-! ### Closed byte strings -/

/-- Where one byte string ends and the other goes on, the closing zero meets a byte that is not
zero, or an escaped zero; then the rest meets the escape. -/
theorem compare_closed_append (a b : Bytes) {s t : Bytes} (hs : Unescaped s) (ht : Unescaped t) :
    compare (closed a ++ s) (closed b ++ t) = (compare a b).then (compare s t) := by
  induction a generalizing b with
  | nil =>
    cases b with
    | nil => exact compare_cons_self 0 s t
    | cons y ys =>
      by_cases hy : y = 0
      · subst hy
        simp only [closed, if_true, List.cons_append, List.nil_append, compare_cons_self]
        exact (compare_escape_of_unescaped hs _).1
      · simp only [closed, if_neg hy, List.cons_append, List.nil_append]
        exact (compare_zero_cons_of_ne hy _ _).1
  | cons x xs ih =>
    cases b with
    | nil =>
      by_cases hx : x = 0
      · subst hx
        simp only [closed, if_true, List.cons_append, List.nil_append, compare_cons_self]
        exact (compare_escape_of_unescaped ht _).2
      · simp only [closed, if_neg hx, List.cons_append, List.nil_append]
        exact (compare_zero_cons_of_ne hx _ _).2
    | cons y ys =>
      by_cases hx : x = 0 <;> by_cases hy : y = 0
      · subst hx hy
        simp only [closed, if_true, List.cons_append, compare_cons_self, ih]
      · subst hx
        have h := compare_zero_cons_of_ne hy
        simp only [closed, if_true, if_neg hy, List.cons_append, (h _ _).1, Ordering.lt_then]
      · subst hy
        have h := compare_zero_cons_of_ne hx
        simp only [closed, if_true, if_neg hx, List.cons_append, (h _ _).2, Ordering.gt_then]
      · simp only [closed, if_neg hx, if_neg hy, List.cons_append, List.compare_cons_cons, ih,
          Ordering.then_assoc]

/-! ### Kinds -/

/-- The byte that a packed element begins with. -/
def code : TupleValue → UInt8
  | null => 0x00
  | bytes _ => 0x01
  | text _ => 0x02
  | nested _ => 0x05
  | int _ => 0x0C
  | float _ => 0x21
  | bool b => if b then 0x27 else 0x26

theorem pack_eq_code_cons (inside : Bool) (v : TupleValue) :
    ∃ rest, v.pack inside = v.code :: rest := by
  cases v with
  | null => cases inside <;> exact ⟨_, rfl⟩
  | _ => exact ⟨_, by rw [pack]; rfl⟩

theorem code_ne_escape (v : TupleValue) : v.code ≠ escape := by
  cases v with
  | bool b => cases b <;> decide
  | _ => simp only [code]; decide

theorem code_ne_zero {v : TupleValue} (h : v ≠ null) : v.code ≠ 0 := by
  cases v with
  | null => exact absurd rfl h
  | bool b => cases b <;> decide
  | _ => simp only [code]; decide

theorem code_lt_of_rank_lt {a b : TupleValue} (h : a.rank < b.rank) : a.code < b.code := by
  cases a <;> cases b <;> simp only [rank, code] at h ⊢ <;>
    first | exact absurd h (by decide) | decide | (split <;> decide)

theorem order_of_rank_lt {a b : TupleValue} (h : a.rank < b.rank) :
    order a b = .lt ∧ order b a = .gt := by
  cases a <;> cases b <;> simp only [rank] at h <;> first | omega | exact ⟨rfl, rfl⟩

theorem unescaped_pack_append (inside : Bool) (v : TupleValue) (s : Bytes) :
    Unescaped (v.pack inside ++ s) := by
  obtain ⟨rest, h⟩ := v.pack_eq_code_cons inside
  rw [h]
  exact unescaped_cons v.code_ne_escape

theorem unescaped_packInside_append (vs : List TupleValue) (s : Bytes) :
    Unescaped (packInside vs ++ s) := by
  cases vs with
  | nil => exact unescaped_cons (by decide)
  | cons v vs =>
    rw [packInside, List.append_assoc]
    exact unescaped_pack_append true v _

theorem compare_pack_of_rank_lt (inside : Bool) {a b : TupleValue} (h : a.rank < b.rank)
    (s t : Bytes) : compare (a.pack inside ++ s) (b.pack inside ++ t) = .lt ∧
      compare (b.pack inside ++ t) (a.pack inside ++ s) = .gt := by
  obtain ⟨as, ha⟩ := a.pack_eq_code_cons inside
  obtain ⟨bs, hb⟩ := b.pack_eq_code_cons inside
  have hlt := code_lt_of_rank_lt h
  rw [ha, hb, List.cons_append, List.cons_append, List.compare_cons_cons, List.compare_cons_cons,
    Std.compare_eq_lt.2 hlt, Std.compare_eq_gt.2 hlt]
  exact ⟨rfl, rfl⟩

/-- The byte that closes a nested tuple meets an element: a null inside is escaped, and every other
element begins with a byte that is not zero. -/
theorem compare_close_pack {s : Bytes} (hs : Unescaped s) (v : TupleValue) (t : Bytes) :
    compare (0 :: s) (v.pack true ++ t) = .lt ∧ compare (v.pack true ++ t) (0 :: s) = .gt := by
  by_cases hv : v = null
  · subst hv
    simp only [pack, if_true, List.cons_append, compare_cons_self]
    exact compare_escape_of_unescaped hs _
  · obtain ⟨rest, h⟩ := v.pack_eq_code_cons true
    rw [h, List.cons_append]
    exact compare_zero_cons_of_ne (code_ne_zero hv) _ _

/-! ### Elements -/

mutual

/-- Two packed elements, each with a rest, compare by the elements and then by the rests. -/
theorem compare_pack_append (inside : Bool) (a b : TupleValue) {s t : Bytes} (hs : Unescaped s)
    (ht : Unescaped t) :
    compare (a.pack inside ++ s) (b.pack inside ++ t) = (order a b).then (compare s t) := by
  rcases Nat.lt_trichotomy a.rank b.rank with h | h | h
  · rw [(compare_pack_of_rank_lt inside h s t).1, (order_of_rank_lt h).1]
    rfl
  · cases a <;> cases b <;> simp only [rank] at h <;> try omega
    case null =>
      cases inside
      · exact compare_cons_self 0 s t
      · show compare (0 :: escape :: s) (0 :: escape :: t) = compare s t
        rw [compare_cons_self, compare_cons_self]
    case bytes x y =>
      rw [pack, pack, List.cons_append, List.cons_append, compare_cons_self, order]
      exact compare_closed_append x y hs ht
    case text x y =>
      rw [pack, pack, List.cons_append, List.cons_append, compare_cons_self, order]
      exact compare_closed_append _ _ hs ht
    case nested xs ys =>
      rw [pack, pack, List.cons_append, List.cons_append, compare_cons_self, order]
      exact compare_packInside_append xs ys hs ht
    case int i j =>
      rw [pack, pack, List.cons_append, List.cons_append, compare_cons_self, order,
        compare_bigEndian64_append, compare_intKey]
    case float x y =>
      rw [pack, pack, List.cons_append, List.cons_append, compare_cons_self, order,
        compare_bigEndian64_append]
    case bool p q =>
      rw [pack, pack, List.cons_append, List.cons_append, List.compare_cons_cons, order]
      cases p <;> cases q <;> rfl
  · rw [(compare_pack_of_rank_lt inside h t s).2, (order_of_rank_lt h).2]
    rfl

/-- The same for the packed elements of nested tuples. -/
theorem compare_packInside_append (as bs : List TupleValue) {s t : Bytes} (hs : Unescaped s)
    (ht : Unescaped t) :
    compare (packInside as ++ s) (packInside bs ++ t) = (orderAll as bs).then (compare s t) := by
  cases as with
  | nil =>
    cases bs with
    | nil => exact compare_cons_self 0 s t
    | cons b bs =>
      rw [packInside, packInside, List.append_assoc]
      exact (compare_close_pack hs b _).1
  | cons a as =>
    cases bs with
    | nil =>
      rw [packInside, packInside, List.append_assoc]
      exact (compare_close_pack ht a _).2
    | cons b bs =>
      rw [packInside, packInside, List.append_assoc, List.append_assoc, orderAll,
        compare_pack_append true a b (unescaped_packInside_append as s)
          (unescaped_packInside_append bs t),
        compare_packInside_append as bs hs ht, Ordering.then_assoc]

end

/-! ### Equality -/

theorem utf8_injective : Function.Injective Text.utf8 := by
  intro s t h
  have hl : s.toList.utf8Encode = t.toList.utf8Encode := by
    unfold List.utf8Encode
    exact congrArg List.toByteArray h
  rw [String.utf8Encode_toList, String.utf8Encode_toList] at hl
  exact String.toByteArray_inj.1 hl

mutual

theorem eq_of_order_eq {a b : TupleValue} (h : order a b = .eq) : a = b := by
  rcases Nat.lt_trichotomy a.rank b.rank with hr | hr | hr
  · rw [(order_of_rank_lt hr).1] at h
    exact Ordering.noConfusion h
  · cases a <;> cases b <;> simp only [rank] at hr <;> try omega
    case null => rfl
    case bytes x y => exact congrArg bytes (Std.compare_eq_iff_eq.1 (by simpa only [order] using h))
    case text x y =>
      exact congrArg text (utf8_injective (Std.compare_eq_iff_eq.1 (by simpa only [order] using h)))
    case nested xs ys => exact congrArg nested (eq_of_orderAll_eq (by simpa only [order] using h))
    case int i j => exact congrArg int (Std.compare_eq_iff_eq.1 (by simpa only [order] using h))
    case float x y =>
      have hkey := Std.compare_eq_iff_eq.1 (by simpa only [order] using h)
      exact congrArg float (Binary64.orderKey_injective hkey)
    case bool p q => exact congrArg bool (Std.compare_eq_iff_eq.1 (by simpa only [order] using h))
  · rw [(order_of_rank_lt hr).2] at h
    exact Ordering.noConfusion h

theorem eq_of_orderAll_eq {as bs : List TupleValue} (h : orderAll as bs = .eq) : as = bs := by
  cases as with
  | nil =>
    cases bs with
    | nil => rfl
    | cons b bs => exact Ordering.noConfusion (by simpa only [orderAll] using h)
  | cons a as =>
    cases bs with
    | nil => exact Ordering.noConfusion (by simpa only [orderAll] using h)
    | cons b bs =>
      rw [orderAll, Ordering.then_eq_eq] at h
      rw [eq_of_order_eq h.1, eq_of_orderAll_eq h.2]

end

end TupleValue

/-! ### Tuples -/

namespace Tuple

theorem pack_cons (v : TupleValue) (t : Tuple) : pack (v :: t) = v.pack false ++ pack t := rfl

theorem pack_append (s t : Tuple) : pack (s ++ t) = pack s ++ pack t := List.flatMap_append

theorem unescaped_pack (t : Tuple) : Unescaped t.pack := by
  cases t with
  | nil => exact unescaped_nil
  | cons v t => exact v.unescaped_pack_append false _

/-- Packed tuples compare as the tuples do. -/
theorem compare_pack (a b : Tuple) : compare a.pack b.pack = compare a b := by
  show compare a.pack b.pack = TupleValue.orderAll a b
  induction a generalizing b with
  | nil =>
    cases b with
    | nil => rfl
    | cons v b =>
      obtain ⟨rest, h⟩ := v.pack_eq_code_cons false
      rw [pack_cons, h]
      rfl
  | cons u a ih =>
    cases b with
    | nil =>
      obtain ⟨rest, h⟩ := u.pack_eq_code_cons false
      rw [pack_cons, h]
      rfl
    | cons v b =>
      rw [pack_cons, pack_cons, TupleValue.orderAll, ← ih b]
      exact TupleValue.compare_pack_append false u v (unescaped_pack a) (unescaped_pack b)

theorem eq_of_compare_eq {a b : Tuple} (h : compare a b = .eq) : a = b :=
  TupleValue.eq_of_orderAll_eq h

theorem pack_injective : Function.Injective pack := by
  intro a b h
  refine eq_of_compare_eq ?_
  rw [← compare_pack, h]
  exact Std.compare_self

instance : Std.TransOrd Tuple where
  eq_swap {a b} := by
    rw [← compare_pack, ← compare_pack]
    exact Std.OrientedCmp.eq_swap
  isLE_trans {a b c} hab hbc := by
    rw [← compare_pack] at hab hbc ⊢
    exact Std.TransCmp.isLE_trans hab hbc

instance : Std.LawfulEqOrd Tuple where
  compare_self {a} := by
    rw [← compare_pack]
    exact Std.compare_self
  eq_of_compare := eq_of_compare_eq

end Tuple

namespace TupleValue

/-- Elements compare as the tuples of one element do. -/
theorem compare_singleton (a b : TupleValue) : compare ([a] : Tuple) [b] = compare a b := by
  show (order a b).then (orderAll [] []) = order a b
  rw [orderAll, Ordering.then_eq]

instance : Std.TransOrd TupleValue where
  eq_swap {a b} := by
    rw [← compare_singleton, ← compare_singleton]
    exact Std.OrientedCmp.eq_swap
  isLE_trans {a b c} hab hbc := by
    rw [← compare_singleton] at hab hbc ⊢
    exact Std.TransCmp.isLE_trans hab hbc

instance : Std.LawfulEqOrd TupleValue where
  compare_self {a} := by
    rw [← compare_singleton]
    exact Std.compare_self
  eq_of_compare := eq_of_order_eq

end TupleValue

namespace Tuple

/-- Packing keeps the order of tuples, so it loses nothing; and tuples and their elements are
totally ordered, numbers by their places in the total order. -/
theorem pack_order_embedding :
    (∀ a b : Tuple, compare a.pack b.pack = compare a b) ∧ Function.Injective pack ∧
      (Std.TransOrd Tuple ∧ Std.LawfulEqOrd Tuple) ∧
      (Std.TransOrd TupleValue ∧ Std.LawfulEqOrd TupleValue) ∧
      ∀ x y : Binary64, compare (TupleValue.float x) (.float y) = compare x.place y.place :=
  ⟨compare_pack, pack_injective, ⟨inferInstance, inferInstance⟩, ⟨inferInstance, inferInstance⟩,
    Binary64.compare_orderKey⟩

end Tuple

end ResumableQuery
