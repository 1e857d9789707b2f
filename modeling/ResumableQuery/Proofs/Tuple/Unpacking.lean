import ResumableQuery.Proofs.Text.Utf8
import ResumableQuery.Proofs.Tuple.PackedOrder

/-!
# Reading packed tuples

A byte string reads as a tuple exactly if it is the tuple's packed form (`unpack_eq_ok_iff`).  Each
part of the reader is looked at twice.  Whatever the input, it comes to a value whose written form
the input begins with, or to one of three refusals (`Comes`); so nothing but packed tuples reads, no
byte is taken that is not there, and fuel does not run out.  And it takes a written value back off
the front of an input, provided that what follows does not begin with the byte that escapes a zero.

A zero byte closes bytes, a text or a nested tuple, or is a null inside of a nested tuple, by the
one byte that follows it.  A nested tuple goes on only if its next byte does not close it
(`Closes`), and then a zero byte that starts an element is an escaped one: the null without its
escape is never met.
-/

namespace ResumableQuery

/-! ### Words -/

theorem littleEndian_ofLittleEndian (l : Bytes) : littleEndian l.length (ofLittleEndian l) = l := by
  induction l with
  | nil => rfl
  | cons b l ih =>
    have hb := b.toNat_lt
    have hmod : (b.toNat + 256 * ofLittleEndian l) % 256 = b.toNat := by omega
    have hdiv : (b.toNat + 256 * ofLittleEndian l) / 256 = ofLittleEndian l := by omega
    rw [ofLittleEndian, List.length_cons, littleEndian, hmod, hdiv, ih, UInt8.ofNat_toNat]

theorem ofLittleEndian_lt (l : Bytes) : ofLittleEndian l < 256 ^ l.length := by
  induction l with
  | nil => simp [ofLittleEndian]
  | cons b l ih =>
    have hb := b.toNat_lt
    rw [ofLittleEndian, List.length_cons, pow_succ]
    omega

theorem ofBigEndian64_bigEndian64 (x : UInt64) : ofBigEndian64 (bigEndian64 x) = x := by
  have hx : x.toNat % Nat.pow 256 8 = x.toNat := Nat.mod_eq_of_lt x.toNat_lt
  rw [ofBigEndian64, bigEndian64, List.reverse_reverse, ofLittleEndian_littleEndian, hx,
    UInt64.ofNat_toNat]

theorem bigEndian64_ofBigEndian64 {l : Bytes} (h : l.length = 8) :
    bigEndian64 (ofBigEndian64 l) = l := by
  have hlt := ofLittleEndian_lt l.reverse
  have hback := littleEndian_ofLittleEndian l.reverse
  rw [List.length_reverse, h] at hlt hback
  rw [bigEndian64, ofBigEndian64, UInt64.toNat_ofNat_of_lt' hlt, hback, List.reverse_reverse]

theorem length_bigEndian64 (x : UInt64) : (bigEndian64 x).length = 8 := by simp [bigEndian64]

theorem xor_signBit_xor_signBit (x : UInt64) :
    x ^^^ Binary64.signBit ^^^ Binary64.signBit = x := by
  rw [UInt64.xor_assoc, UInt64.xor_self, UInt64.xor_zero]

theorem toInt64_intKey (i : Int64) : (TupleValue.intKey i ^^^ Binary64.signBit).toInt64 = i := by
  rw [TupleValue.intKey, xor_signBit_xor_signBit, Int64.toInt64_toUInt64]

theorem intKey_toInt64 (x : UInt64) : TupleValue.intKey (x ^^^ Binary64.signBit).toInt64 = x := by
  show (x ^^^ Binary64.signBit) ^^^ Binary64.signBit = x
  exact xor_signBit_xor_signBit x

namespace Binary64

theorem orderKey_ofOrderKey (x : UInt64) : (ofOrderKey x).orderKey = x := by
  have hlt := x.toNat_lt
  unfold ofOrderKey
  split
  · rename_i h
    have hx := (signBit_le_iff x).1 h
    have hbits := toNat_xor_signBit x
    have hneg : (Binary64.mk (x ^^^ signBit)).isNegative = false := by
      refine Bool.eq_false_iff.2 fun hneg => ?_
      have := (isNegative_iff _).1 hneg
      simp only [hbits, if_neg (Nat.not_lt.2 hx)] at this
      omega
    rw [orderKey, hneg, if_neg Bool.false_ne_true, xor_signBit_xor_signBit]
  · rename_i h
    have hx := mt (signBit_le_iff x).2 h
    have hneg : (Binary64.mk (~~~ x)).isNegative = true := by
      rw [isNegative_iff]
      simp only [UInt64.toNat_not, UInt64.size]
      omega
    rw [orderKey, hneg, if_pos rfl, UInt64.not_not]

theorem ofOrderKey_orderKey (x : Binary64) : ofOrderKey x.orderKey = x :=
  orderKey_injective (orderKey_ofOrderKey x.orderKey)

end Binary64

namespace TupleValue

/-! ### Outcomes of reading -/

/-- The faults by which bytes are turned down. -/
def Fault.IsRefusal (f : Fault) : Prop :=
  f = .refused .length ∨ (∃ code, f = .refused (.typeCode code)) ∨ f = .refused .utf8

/-- Reading has come to a value whose written form the bytes begin with, or to a refusal. -/
def Comes (write : α → Bytes) (b : Bytes) : Except Fault (α × Bytes) → Prop
  | .ok (v, rest) => b = write v ++ rest
  | .error f => f.IsRefusal

theorem Comes.bind {p : α → Bytes} {q : β → Bytes} {b b' : Bytes} {r : Except Fault (α × Bytes)}
    {k : α × Bytes → Except Fault (β × Bytes)} (h : Comes p b r)
    (hk : ∀ v rest, b = p v ++ rest → Comes q b' (k (v, rest))) : Comes q b' (r >>= k) := by
  cases r with
  | error f => exact h
  | ok r => exact hk r.1 r.2 h

theorem Comes.map {p : α → Bytes} {q : β → Bytes} {b b' : Bytes} {r : Except Fault (α × Bytes)}
    (h : Comes p b r) {f : α × Bytes → β × Bytes}
    (hf : ∀ v rest, b = p v ++ rest → b' = q (f (v, rest)).1 ++ (f (v, rest)).2) :
    Comes q b' (r.map f) := by
  cases r with
  | error f => exact h
  | ok r => exact hf r.1 r.2 h

theorem isRefusal_length : Fault.IsRefusal (.refused .length) := .inl rfl

/-! ### Closed byte strings and words -/

theorem unclose_cons_of_ne {b : UInt8} (h : b ≠ 0) (rest : Bytes) :
    unclose (b :: rest) = (unclose rest).map fun (content, left) => (b :: content, left) := by
  rw [unclose.eq_def]
  simp only [if_neg h]

theorem comes_unclose (b : Bytes) : Comes closed b (unclose b) := by
  induction b using unclose.induct with
  | case1 => exact isRefusal_length
  | case2 more ih =>
    simp only [unclose, if_true]
    refine ih.map fun content left h => ?_
    rw [h, closed, if_pos rfl]
    rfl
  | case3 c more hc =>
    simp only [unclose, if_true, if_neg hc]
    rfl
  | case4 => rfl
  | case5 b rest hb ih =>
    rw [unclose_cons_of_ne hb]
    refine ih.map fun content left h => ?_
    rw [h, closed, if_neg hb]
    rfl

theorem unclose_closed_append (a : Bytes) {s : Bytes} (hs : Unescaped s) :
    unclose (closed a ++ s) = .ok (a, s) := by
  induction a with
  | nil =>
    cases s with
    | nil => rfl
    | cons c more =>
      have hc : c ≠ escape := by simpa [Unescaped] using hs
      simp [closed, unclose, hc]
  | cons x xs ih =>
    by_cases hx : x = 0
    · subst hx
      simp [closed, unclose, ih, Except.map]
    · simp [closed, unclose_cons_of_ne hx, hx, ih, Except.map]

theorem comes_takeWord (b : Bytes) : Comes bigEndian64 b (takeWord b) := by
  unfold takeWord
  simp only
  split
  · rename_i h
    show b = bigEndian64 (ofBigEndian64 (b.take 8)) ++ b.drop 8
    rw [bigEndian64_ofBigEndian64 h, List.take_append_drop]
  · exact isRefusal_length

theorem takeWord_bigEndian64_append (x : UInt64) (s : Bytes) :
    takeWord (bigEndian64 x ++ s) = .ok (x, s) := by
  have h := length_bigEndian64 x
  simp [takeWord, List.take_left' h, List.drop_left' h, h, ofBigEndian64_bigEndian64]

/-! ### Elements -/

theorem length_lt_pack_append (inside : Bool) (v : TupleValue) (s : Bytes) :
    s.length < (v.pack inside ++ s).length := by
  obtain ⟨rest, h⟩ := v.pack_eq_code_cons inside
  rw [h, List.length_append, List.length_cons]
  omega

/-- The bytes begin with the byte that closes a nested tuple. -/
def Closes (b : Bytes) : Prop := ∃ rest, b = 0 :: rest ∧ Unescaped rest

mutual

theorem comes_unpack (inside : Bool) (fuel : Nat) {b : Bytes} (hb : b ≠ [])
    (hfuel : 2 * b.length ≤ fuel + 1) (hin : inside = true → ¬ Closes b) :
    Comes (pack inside) b (unpack inside fuel b) := by
  match fuel, b with
  | _, [] => exact absurd rfl hb
  | 0, _ :: _ =>
    rw [List.length_cons] at hfuel
    omega
  | fuel + 1, code :: rest =>
    rw [List.length_cons] at hfuel
    unfold unpack
    -- one kind of element after the other, in the order of their codes
    split
    · -- null
      rename_i h0
      subst h0
      cases inside with
      | false => rfl
      | true =>
        cases rest with
        | nil => exact absurd ⟨[], rfl, unescaped_nil⟩ (hin rfl)
        | cons c more =>
          simp only [if_true]
          split
          · rename_i hc
            subst hc
            rfl
          · rename_i hc
            exact absurd ⟨_, rfl, unescaped_cons hc⟩ (hin rfl)
    split
    · -- bytes
      rename_i h
      subst h
      refine (comes_unclose rest).bind fun content left h => ?_
      rw [h]
      rfl
    split
    · -- text
      rename_i h
      subst h
      refine (comes_unclose rest).bind fun content left h => ?_
      simp only
      cases ht : Text.ofUtf8 content with
      | ok s =>
        rw [h, ← Text.ofUtf8_eq_ok_iff.1 ht]
        rfl
      | error e => exact Or.inr (.inr rfl)
    split
    · -- nested
      rename_i h
      subst h
      refine (comes_unpackInside fuel (b := rest) (by omega)).bind fun elements left h => ?_
      rw [h]
      rfl
    split
    · -- integer
      rename_i h
      subst h
      refine (comes_takeWord rest).bind fun word left h => ?_
      rw [h]
      show _ = (12 :: bigEndian64 _) ++ left
      rw [intKey_toInt64]
      rfl
    split
    · -- double
      rename_i h
      subst h
      refine (comes_takeWord rest).bind fun word left h => ?_
      rw [h]
      show _ = (33 :: bigEndian64 _) ++ left
      rw [Binary64.orderKey_ofOrderKey]
      rfl
    split
    · -- false
      rename_i h
      subst h
      rfl
    split
    · -- true
      rename_i h
      subst h
      rfl
    · exact .inr (.inl ⟨_, rfl⟩)

theorem comes_unpackInside (fuel : Nat) {b : Bytes} (hfuel : 2 * b.length ≤ fuel) :
    Comes packInside b (unpackInside fuel b) := by
  match fuel, b with
  | _, [] =>
    unfold unpackInside
    exact isRefusal_length
  | 0, _ :: _ =>
    rw [List.length_cons] at hfuel
    omega
  | fuel + 1, b :: rest =>
    unfold unpackInside
    split
    · rename_i h
      obtain ⟨rfl, -⟩ := h
      rfl
    · rename_i h
      have hopen : ¬ Closes (b :: rest) := by
        rintro ⟨rest', heq, hr⟩
        cases heq
        exact h ⟨rfl, hr⟩
      have hfirst := comes_unpack true fuel (List.cons_ne_nil b rest) (by omega) fun _ => hopen
      refine hfirst.bind fun v left h => ?_
      have hlt : left.length < (b :: rest).length := h ▸ length_lt_pack_append true v left
      rw [List.length_cons] at hlt hfuel
      refine (comes_unpackInside fuel (b := left) (by omega)).bind fun vs left' h' => ?_
      rw [h, h']
      show _ = packInside (v :: vs) ++ left'
      rw [packInside, List.append_assoc]

end

theorem not_closes_pack (v : TupleValue) (s : Bytes) : ¬ Closes (v.pack true ++ s) := by
  rintro ⟨rest, h, hr⟩
  have hlt := (compare_close_pack hr v s).1
  rw [h, Std.compare_self] at hlt
  cases hlt

mutual

theorem unpack_pack (inside : Bool) (fuel : Nat) (v : TupleValue) {s : Bytes} (hs : Unescaped s)
    (hfuel : 2 * (v.pack inside).length ≤ fuel + 1) :
    unpack inside fuel (v.pack inside ++ s) = .ok (v, s) := by
  obtain ⟨fuel, rfl⟩ : ∃ n, fuel = n + 1 := by
    refine Nat.exists_eq_succ_of_ne_zero fun h => ?_
    obtain ⟨rest, hv⟩ := v.pack_eq_code_cons inside
    rw [hv, List.length_cons] at hfuel
    omega
  cases v with
  | null => cases inside <;> rfl
  | bytes b =>
    show (unclose (closed b ++ s) >>= _) = _
    rw [unclose_closed_append b hs]
    rfl
  | text t =>
    show (unclose (closed (Text.utf8 t) ++ s) >>= _) = _
    rw [unclose_closed_append _ hs]
    show (match Text.ofUtf8 (Text.utf8 t) with | .ok s' => _ | .error _ => _) = _
    rw [Text.ofUtf8_eq_ok_iff.2 rfl]
    rfl
  | nested elements =>
    rw [pack, List.length_cons] at hfuel
    show (unpackInside fuel (packInside elements ++ s) >>= _) = _
    rw [unpackInside_packInside fuel elements hs (by omega)]
    rfl
  | int i =>
    show (takeWord (bigEndian64 (intKey i) ++ s) >>= _) = _
    rw [takeWord_bigEndian64_append]
    show Except.ok (int _, s) = _
    rw [toInt64_intKey]
  | float x =>
    show (takeWord (bigEndian64 x.orderKey ++ s) >>= _) = _
    rw [takeWord_bigEndian64_append]
    show Except.ok (float _, s) = _
    rw [Binary64.ofOrderKey_orderKey]
  | bool b => cases b <;> rfl

theorem unpackInside_packInside (fuel : Nat) (vs : List TupleValue) {s : Bytes} (hs : Unescaped s)
    (hfuel : 2 * (packInside vs).length ≤ fuel) :
    unpackInside fuel (packInside vs ++ s) = .ok (vs, s) := by
  cases vs with
  | nil =>
    rw [packInside, List.length_singleton] at hfuel
    obtain ⟨fuel, rfl⟩ : ∃ n, fuel = n + 1 := Nat.exists_eq_succ_of_ne_zero (by omega)
    show (if _ then _ else _) = _
    rw [if_pos ⟨rfl, hs⟩]
    rfl
  | cons v vs =>
    have hopen := not_closes_pack v (packInside vs ++ s)
    obtain ⟨rest, hv⟩ := v.pack_eq_code_cons true
    rw [packInside, hv, List.length_append, List.length_cons] at hfuel
    obtain ⟨fuel, rfl⟩ : ∃ n, fuel = n + 1 := Nat.exists_eq_succ_of_ne_zero (by omega)
    have hfirst := unpack_pack true fuel v (unescaped_packInside_append vs s)
      (by rw [hv, List.length_cons]; omega)
    rw [packInside, List.append_assoc]
    rw [hv, List.cons_append] at hopen hfirst ⊢
    unfold unpackInside
    rw [if_neg fun h => hopen ⟨_, by rw [h.1], h.2⟩, hfirst]
    show (unpackInside fuel (packInside vs ++ s) >>= _) = _
    rw [unpackInside_packInside fuel vs hs (by omega)]
    rfl

end

/-! ### Tuples -/

theorem unpackAll_succ (fuel : Nat) {b : Bytes} (hb : b ≠ []) :
    unpackAll (fuel + 1) b = unpack false (2 * b.length) b >>= fun (v, rest) =>
      unpackAll fuel rest >>= fun vs => .ok (v :: vs) := by
  cases b with
  | nil => exact absurd rfl hb
  | cons x xs => rfl

theorem unpackAll_outcome (fuel : Nat) {b : Bytes} (hfuel : b.length ≤ fuel) :
    (∃ vs, unpackAll fuel b = .ok vs ∧ b = Tuple.pack vs) ∨
      ∃ f, unpackAll fuel b = .error f ∧ f.IsRefusal := by
  induction fuel generalizing b with
  | zero =>
    obtain rfl := List.eq_nil_of_length_eq_zero (Nat.le_zero.1 hfuel)
    exact .inl ⟨[], rfl, rfl⟩
  | succ fuel ih =>
    match b with
    | [] => exact .inl ⟨[], rfl, rfl⟩
    | x :: xs =>
      have hfirst := comes_unpack false (2 * (x :: xs).length) (List.cons_ne_nil x xs) (by omega)
        fun h => absurd h Bool.false_ne_true
      rw [unpackAll_succ fuel (List.cons_ne_nil x xs)]
      rcases hv : unpack false (2 * (x :: xs).length) (x :: xs) with f | ⟨v, rest⟩
      · rw [hv] at hfirst
        exact .inr ⟨f, rfl, hfirst⟩
      · rw [hv] at hfirst
        have hb : x :: xs = v.pack false ++ rest := hfirst
        have hlt : rest.length < (x :: xs).length := hb ▸ length_lt_pack_append false v rest
        rcases ih (b := rest) (by omega) with ⟨vs, hvs, hrest⟩ | ⟨f, hf, href⟩
        · refine .inl ⟨v :: vs, ?_, by rw [hb, hrest, Tuple.pack_cons]⟩
          show (unpackAll fuel rest >>= _) = _
          rw [hvs]
          rfl
        · refine .inr ⟨f, ?_, href⟩
          show (unpackAll fuel rest >>= _) = _
          rw [hf]
          rfl

theorem unpackAll_pack (fuel : Nat) (t : Tuple) (hfuel : (Tuple.pack t).length ≤ fuel) :
    unpackAll fuel (Tuple.pack t) = .ok t := by
  induction t generalizing fuel with
  | nil => cases fuel <;> rfl
  | cons v t ih =>
    have hlt := length_lt_pack_append false v (Tuple.pack t)
    rw [Tuple.pack_cons] at hfuel ⊢
    obtain ⟨fuel, rfl⟩ : ∃ n, fuel = n + 1 := Nat.exists_eq_succ_of_ne_zero (by omega)
    rw [unpackAll_succ fuel (List.ne_nil_of_length_pos (by omega)),
      unpack_pack false _ v (Tuple.unescaped_pack t) (by rw [List.length_append]; omega)]
    show (unpackAll fuel (Tuple.pack t) >>= _) = _
    rw [ih fuel (by omega)]
    rfl

end TupleValue

namespace Tuple

theorem read_pack (t : Tuple) : read (pack t) = .ok t := TupleValue.unpackAll_pack _ t le_rfl

theorem unpack_eq_ok_iff (b : Bytes) (t : Tuple) : unpack b = .ok t ↔ pack t = b := by
  constructor
  · intro h
    rcases TupleValue.unpackAll_outcome b.length (b := b) le_rfl with ⟨vs, hvs, hb⟩ | ⟨f, hf, -⟩
    · rw [unpack, read, hvs] at h
      cases h
      exact hb.symm
    · rw [unpack, read, hf] at h
      cases h
  · rintro rfl
    rw [unpack, read_pack]
    rfl

theorem read_of_not_pack {b : Bytes} (h : ∀ t : Tuple, pack t ≠ b) :
    ∃ f, read b = .error f ∧ f.IsRefusal := by
  rcases TupleValue.unpackAll_outcome b.length (b := b) le_rfl with ⟨vs, -, hb⟩ | hf
  · exact absurd hb.symm (h vs)
  · exact hf

/-- The byte strings that read as a tuple are the packed tuples, and each reads as the tuple that it
packs.  Every other byte string is refused: it is too short, has a code of no kind, or holds a text
that is not UTF-8. -/
theorem unpack_exact :
    (∀ (b : Bytes) (t : Tuple), unpack b = .ok t ↔ pack t = b) ∧
      ∀ b : Bytes, (∀ t : Tuple, pack t ≠ b) → ∃ e, read b = .error (.refused e) ∧
        unpack b = .error e ∧ (e = .length ∨ (∃ code, e = .typeCode code) ∨ e = .utf8) := by
  refine ⟨unpack_eq_ok_iff, fun b hb => ?_⟩
  obtain ⟨f, hf, rfl | ⟨code, rfl⟩ | rfl⟩ := read_of_not_pack hb
  · exact ⟨.length, hf, by rw [unpack, hf]; rfl, .inl rfl⟩
  · exact ⟨.typeCode code, hf, by rw [unpack, hf]; rfl, .inr (.inl ⟨code, rfl⟩)⟩
  · exact ⟨.utf8, hf, by rw [unpack, hf]; rfl, .inr (.inr rfl)⟩

/-- A nested tuple of one null that is never closed: the zero byte before the escape is the null. -/
theorem unpack_exact_unclosed :
    (∀ t : Tuple, pack t ≠ [0x05, 0x00, 0xFF]) ∧ ∃ e,
      read [0x05, 0x00, 0xFF] = .error (.refused e) ∧ unpack [0x05, 0x00, 0xFF] = .error e ∧
        (e = .length ∨ (∃ code, e = .typeCode code) ∨ e = .utf8) := by
  have hne : ∀ t : Tuple, pack t ≠ [0x05, 0x00, 0xFF] := by
    intro t ht
    have hok := (unpack_exact.1 _ t).2 ht
    rw [(by decide : unpack [0x05, 0x00, 0xFF] = .error .length)] at hok
    cases hok
  exact ⟨hne, unpack_exact.2 _ hne⟩

end Tuple

end ResumableQuery
