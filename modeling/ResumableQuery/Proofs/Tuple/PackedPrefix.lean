import ResumableQuery.Proofs.Tuple.Unpacking

/-!
# Prefixes of packed tuples

The packed form of a tuple begins with the packed form of every tuple it begins with, and with some
more: the zero byte that closes bytes, a text or a nested tuple may be met by a zero that is written
with an escape behind it.  So the packed `("a")` is what the packed `("a\0b")` begins with, although
the tuples have no element in common.  `pack_prefix_pack_iff` says that nothing else happens: apart
from the tuples that begin with a tuple there are those that run on from it (`RunsOn`), in which the
element in the place of its last one goes on with a zero byte, a zero character or a null.
-/

namespace ResumableQuery

namespace Text

theorem utf8_append_prefix (cs ds : List Char) {b : Bytes}
    (h : cs.flatMap String.utf8EncodeChar ++ b = ds.flatMap String.utf8EncodeChar) :
    ∃ es, ds = cs ++ es ∧ b = es.flatMap String.utf8EncodeChar := by
  induction cs generalizing ds with
  | nil => exact ⟨ds, rfl, h⟩
  | cons c cs ih =>
    rw [List.flatMap_cons, List.append_assoc] at h
    have hc := takeChar_eq_ok_iff.2 h.symm
    cases ds with
    | nil => exact absurd hc (by rintro ⟨⟩)
    | cons d ds =>
      rw [List.flatMap_cons, takeChar_eq_ok_iff.2 rfl] at hc
      obtain ⟨rfl, hrest⟩ := Prod.mk.inj (Except.ok.inj hc)
      obtain ⟨es, rfl, hb⟩ := ih ds hrest.symm
      exact ⟨es, rfl, hb⟩

theorem utf8_eq_append_zero_iff (s t : String) :
    (∃ rest, utf8 t = utf8 s ++ 0 :: rest) ↔ ∃ rest, t.toList = s.toList ++ '\x00' :: rest := by
  constructor
  · rintro ⟨rest, h⟩
    obtain ⟨es, hes, hrest⟩ := utf8_append_prefix s.toList t.toList h.symm
    have hzero : takeChar (0 :: rest) = .ok ('\x00', rest) := takeChar_eq_ok_iff.2 rfl
    cases es with
    | nil => cases hrest
    | cons e es =>
      rw [hrest, List.flatMap_cons, takeChar_eq_ok_iff.2 rfl] at hzero
      cases hzero
      exact ⟨es, hes⟩
  · rintro ⟨rest, h⟩
    refine ⟨rest.flatMap String.utf8EncodeChar, ?_⟩
    rw [utf8, h, List.flatMap_append, List.flatMap_cons]
    rfl

end Text

namespace TupleValue

/-- The second element goes on from where the first one ends, with a zero or, in a nested tuple, a
null. -/
inductive GoesOn : TupleValue → TupleValue → Prop
  | bytes (b rest : Bytes) : GoesOn (.bytes b) (.bytes (b ++ 0 :: rest))
  | text {s t : String} {rest : List Char} (h : t.toList = s.toList ++ '\x00' :: rest) :
    GoesOn (.text s) (.text t)
  | nested (vs rest : List TupleValue) : GoesOn (.nested vs) (.nested (vs ++ .null :: rest))

theorem GoesOn.ne {u v : TupleValue} (h : GoesOn u v) : u ≠ v := by
  cases h with
  | bytes b rest => simp
  | text h =>
    rintro ⟨⟩
    simp at h
  | nested vs rest => simp

theorem goesOn_bytes_iff {a b : Bytes} :
    GoesOn (bytes a) (bytes b) ↔ ∃ rest, b = a ++ 0 :: rest := by
  constructor
  · rintro ⟨⟩
    exact ⟨_, rfl⟩
  · rintro ⟨rest, rfl⟩
    exact .bytes a rest

theorem goesOn_text_iff {s t : String} :
    GoesOn (text s) (text t) ↔ ∃ rest, Text.utf8 t = Text.utf8 s ++ 0 :: rest := by
  rw [Text.utf8_eq_append_zero_iff]
  constructor
  · rintro ⟨⟩
    exact ⟨_, ‹_›⟩
  · rintro ⟨rest, h⟩
    exact .text h

theorem goesOn_nested_iff {us vs : List TupleValue} :
    GoesOn (nested us) (nested vs) ↔ ∃ rest, vs = us ++ null :: rest := by
  constructor
  · rintro ⟨⟩
    exact ⟨_, rfl⟩
  · rintro ⟨rest, rfl⟩
    exact .nested us rest

/-! ### Parts of elements -/

theorem not_prefix_of_unescaped {s : Bytes} (hs : Unescaped s) (t : Bytes) :
    ¬ TupleValue.escape :: t <+: s := by
  cases s with
  | nil => simp
  | cons b s =>
    have hne : b ≠ escape := by simpa [Unescaped] using hs
    rw [List.cons_prefix_cons]
    exact fun h => hne h.1.symm

theorem prefix_escape_iff {s : Bytes} (hs : Unescaped s) (t : Bytes) :
    s <+: TupleValue.escape :: t ↔ s = [] := by
  cases s with
  | nil => simp
  | cons b s =>
    have hne : b ≠ escape := by simpa [Unescaped] using hs
    simp [List.cons_prefix_cons, hne]

theorem closed_append_prefix_iff (a b : Bytes) {s t : Bytes} (hs : Unescaped s) (ht : Unescaped t) :
    closed a ++ s <+: closed b ++ t ↔
      (a = b ∧ s <+: t) ∨ (s = [] ∧ ∃ rest, b = a ++ 0 :: rest) := by
  induction a generalizing b with
  | nil =>
    cases b with
    | nil => simp [closed]
    | cons y ys =>
      by_cases hy : y = 0
      · subst hy
        simp [closed, prefix_escape_iff hs]
      · simp [closed, hy, Ne.symm hy]
  | cons x xs ih =>
    cases b with
    | nil =>
      by_cases hx : x = 0
      · subst hx
        simp [closed, not_prefix_of_unescaped ht]
      · simp [closed, hx]
    | cons y ys =>
      by_cases hx : x = 0 <;> by_cases hy : y = 0
      · subst hx hy
        simp [closed, ih]
      · subst hx
        simp [closed, hy, Ne.symm hy]
      · subst hy
        simp only [closed, if_neg hx, if_true, List.cons_append, List.cons_prefix_cons]
        constructor
        · exact fun h => absurd h.1 hx
        · rintro (⟨h, -⟩ | ⟨-, rest, h⟩) <;>
            exact absurd (List.cons.inj h).1 (by simpa [eq_comm] using hx)
      · simp only [closed, if_neg hx, if_neg hy, List.cons_append, List.cons_prefix_cons, ih,
          List.cons.injEq, and_or_left, and_assoc]
        refine or_congr Iff.rfl ⟨?_, ?_⟩
        · rintro ⟨rfl, rfl, rest, rfl⟩
          exact ⟨rfl, rest, rfl, rfl⟩
        · rintro ⟨rfl, rest, rfl, rfl⟩
          exact ⟨rfl, rfl, rest, rfl⟩

theorem word_append_prefix_iff (x y : UInt64) (s t : Bytes) :
    bigEndian64 x ++ s <+: bigEndian64 y ++ t ↔ x = y ∧ s <+: t := by
  have hlen := (length_bigEndian64 x).trans (length_bigEndian64 y).symm
  constructor
  · rintro ⟨more, h⟩
    rw [List.append_assoc] at h
    obtain ⟨hxy, hst⟩ := List.append_inj h hlen
    have hword := congrArg ofBigEndian64 hxy
    rw [ofBigEndian64_bigEndian64, ofBigEndian64_bigEndian64] at hword
    exact ⟨hword, more, hst⟩
  · rintro ⟨rfl, h⟩
    exact (List.prefix_append_right_inj _).2 h

/-! ### Elements -/

theorem GoesOn.rank_eq {u v : TupleValue} (h : GoesOn u v) : u.rank = v.rank := by
  cases h <;> rfl

theorem pack_append_prefix_of_rank_ne (inside : Bool) {u v : TupleValue} (h : u.rank ≠ v.rank)
    (s t : Bytes) : ¬ u.pack inside ++ s <+: v.pack inside ++ t := by
  obtain ⟨us, hu⟩ := u.pack_eq_code_cons inside
  obtain ⟨vs, hv⟩ := v.pack_eq_code_cons inside
  rw [hu, hv, List.cons_append, List.cons_append, List.cons_prefix_cons]
  rintro ⟨hcode, -⟩
  rcases Nat.lt_or_gt_of_ne h with hlt | hlt
  · exact UInt8.ne_of_lt (code_lt_of_rank_lt hlt) hcode
  · exact UInt8.ne_of_lt (code_lt_of_rank_lt hlt) hcode.symm

theorem close_prefix_pack_iff {s : Bytes} (hs : Unescaped s) (v : TupleValue) (t : Bytes) :
    0 :: s <+: v.pack true ++ t ↔ v = null ∧ s = [] := by
  by_cases hv : v = null
  · subst hv
    show 0 :: s <+: 0 :: escape :: t ↔ _
    simp [prefix_escape_iff hs]
  · obtain ⟨rest, h⟩ := v.pack_eq_code_cons true
    rw [h, List.cons_append, List.cons_prefix_cons]
    simp [hv, Ne.symm (code_ne_zero hv)]

theorem not_pack_prefix_close {t : Bytes} (ht : Unescaped t) (v : TupleValue) (s : Bytes) :
    ¬ v.pack true ++ s <+: 0 :: t := by
  by_cases hv : v = null
  · subst hv
    show ¬ 0 :: escape :: s <+: 0 :: t
    simp [not_prefix_of_unescaped ht]
  · obtain ⟨rest, h⟩ := v.pack_eq_code_cons true
    rw [h, List.cons_append, List.cons_prefix_cons]
    exact fun h => code_ne_zero hv h.1

mutual

/-- A packed element with a rest begins with another one either if the elements are the same and
the rests do, or if nothing follows the one and the other goes on from it. -/
theorem pack_append_prefix_iff (inside : Bool) (u v : TupleValue) {s t : Bytes} (hs : Unescaped s)
    (ht : Unescaped t) : u.pack inside ++ s <+: v.pack inside ++ t ↔
      (u = v ∧ s <+: t) ∨ (s = [] ∧ GoesOn u v) := by
  by_cases hr : u.rank = v.rank
  · cases u <;> cases v <;> simp only [rank] at hr <;> try omega
    case null =>
      have hno : ¬ GoesOn null null := by rintro ⟨⟩
      simp [List.prefix_append_right_inj, hno]
    case bytes a b =>
      rw [pack, pack, List.cons_append, List.cons_append, List.cons_prefix_cons,
        closed_append_prefix_iff a b hs ht, goesOn_bytes_iff]
      simp
    case text a b =>
      rw [pack, pack, List.cons_append, List.cons_append, List.cons_prefix_cons,
        closed_append_prefix_iff _ _ hs ht, goesOn_text_iff, utf8_injective.eq_iff]
      simp
    case nested us vs =>
      rw [pack, pack, List.cons_append, List.cons_append, List.cons_prefix_cons,
        packInside_append_prefix_iff us vs hs ht, goesOn_nested_iff]
      simp
    case int i j =>
      have hno : ¬ GoesOn (int i) (int j) := by rintro ⟨⟩
      have hij : intKey i = intKey j ↔ i = j := by
        refine ⟨fun h => ?_, congrArg intKey⟩
        rw [← toInt64_intKey i, h, toInt64_intKey]
      rw [pack, pack, List.cons_append, List.cons_append, List.cons_prefix_cons,
        word_append_prefix_iff, hij]
      simp [hno]
    case float x y =>
      have hno : ¬ GoesOn (float x) (float y) := by rintro ⟨⟩
      rw [pack, pack, List.cons_append, List.cons_append, List.cons_prefix_cons,
        word_append_prefix_iff, Binary64.orderKey_injective.eq_iff]
      simp [hno]
    case bool p q =>
      have hno : ¬ GoesOn (bool p) (bool q) := by rintro ⟨⟩
      cases p <;> cases q <;> simp [pack, hno]
  · have hne : u ≠ v := fun h => hr (congrArg rank h)
    have hno : ¬ GoesOn u v := fun h => hr h.rank_eq
    simp [pack_append_prefix_of_rank_ne inside hr, hne, hno]

theorem packInside_append_prefix_iff (us vs : List TupleValue) {s t : Bytes} (hs : Unescaped s)
    (ht : Unescaped t) : packInside us ++ s <+: packInside vs ++ t ↔
      (us = vs ∧ s <+: t) ∨ (s = [] ∧ ∃ rest, vs = us ++ null :: rest) := by
  cases us with
  | nil =>
    cases vs with
    | nil => simp [packInside]
    | cons v vs =>
      rw [packInside, packInside, List.append_assoc, List.singleton_append,
        close_prefix_pack_iff hs]
      simp [and_comm]
  | cons u us =>
    cases vs with
    | nil =>
      rw [packInside, packInside, List.append_assoc, List.singleton_append]
      simp [not_pack_prefix_close ht]
    | cons v vs =>
      have hne : packInside us ++ s ≠ [] := by
        cases us with
        | nil => simp [packInside]
        | cons w ws =>
          obtain ⟨rest, h⟩ := w.pack_eq_code_cons true
          simp [packInside, h]
      rw [packInside, packInside, List.append_assoc, List.append_assoc,
        pack_append_prefix_iff true u v (unescaped_packInside_append us s)
          (unescaped_packInside_append vs t),
        packInside_append_prefix_iff us vs hs ht]
      simp only [hne, false_and, or_false, List.cons.injEq, List.cons_append]
      constructor
      · rintro ⟨rfl, ⟨rfl, h⟩ | ⟨h, rest, rfl⟩⟩
        · exact .inl ⟨⟨rfl, rfl⟩, h⟩
        · exact .inr ⟨h, rest, rfl, rfl⟩
      · rintro (⟨⟨rfl, rfl⟩, h⟩ | ⟨h, rest, rfl, rfl⟩)
        · exact ⟨rfl, .inl ⟨rfl, h⟩⟩
        · exact ⟨rfl, .inr ⟨h, rest, rfl⟩⟩

end

end TupleValue

/-! ### Tuples -/

namespace Tuple

/-- The tuple has the elements of `start`, but for the last one, from which its element in that
place goes on. -/
def RunsOn (start t : Tuple) : Prop :=
  ∃ front u v rest, start = front ++ [u] ∧ t = front ++ v :: rest ∧ TupleValue.GoesOn u v

theorem RunsOn.not_prefix {s t : Tuple} (h : RunsOn s t) : ¬ s <+: t := by
  obtain ⟨front, u, v, rest, rfl, rfl, hgo⟩ := h
  rw [List.prefix_append_right_inj, List.cons_prefix_cons]
  exact fun h => hgo.ne h.1

theorem runsOn_cons_iff (u v : TupleValue) (s t : Tuple) :
    RunsOn (u :: s) (v :: t) ↔ (u = v ∧ RunsOn s t) ∨ (s = [] ∧ TupleValue.GoesOn u v) := by
  constructor
  · rintro ⟨front, x, y, rest, hs, ht, hgo⟩
    cases front with
    | nil =>
      cases hs
      cases ht
      exact .inr ⟨rfl, hgo⟩
    | cons w front =>
      cases hs
      cases ht
      exact .inl ⟨rfl, front, x, y, rest, rfl, rfl, hgo⟩
  · rintro (⟨rfl, front, x, y, rest, rfl, rfl, hgo⟩ | ⟨rfl, hgo⟩)
    · exact ⟨u :: front, x, y, rest, rfl, rfl, hgo⟩
    · exact ⟨[], u, v, t, rfl, rfl, hgo⟩

theorem pack_ne_nil (v : TupleValue) (t : Tuple) : pack (v :: t) ≠ [] := by
  obtain ⟨rest, h⟩ := v.pack_eq_code_cons false
  rw [pack_cons, h]
  exact List.cons_ne_nil _ _

theorem pack_eq_nil_iff (t : Tuple) : pack t = [] ↔ t = [] := by
  cases t with
  | nil => exact ⟨fun _ => rfl, fun _ => rfl⟩
  | cons v t =>
    exact ⟨fun h => absurd h (pack_ne_nil v t), fun h => absurd h (List.cons_ne_nil v t)⟩

/-- A packed tuple begins with the packed forms of the tuples that it begins with or runs on from.
-/
theorem pack_prefix_pack_iff (s t : Tuple) : pack s <+: pack t ↔ s <+: t ∨ RunsOn s t := by
  induction s generalizing t with
  | nil => exact ⟨fun _ => .inl List.nil_prefix, fun _ => List.nil_prefix⟩
  | cons u s ih =>
    cases t with
    | nil =>
      have hno : ¬ RunsOn (u :: s) [] := by
        rintro ⟨front, x, y, rest, -, ht, -⟩
        exact absurd ht.symm (by simp)
      have hnil : ¬ pack (u :: s) <+: pack [] := by
        rw [show pack [] = [] from rfl, List.prefix_nil]
        exact pack_ne_nil u s
      simp [hno, hnil]
    | cons v t =>
      rw [pack_cons, pack_cons, TupleValue.pack_append_prefix_iff false u v (unescaped_pack s)
        (unescaped_pack t), ih, pack_eq_nil_iff, runsOn_cons_iff, List.cons_prefix_cons]
      tauto

end Tuple

end ResumableQuery
