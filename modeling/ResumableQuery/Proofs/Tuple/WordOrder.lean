import Mathlib.Data.Nat.Bitwise
import Mathlib.Tactic.Ring
import ResumableQuery.Tuple.Packing

/-!
# Order of packed words

A packed word is eight bytes, most significant first, and before it is packed its sign bit is
flipped.  This file shows what both steps do to the order: the bytes of two words compare as the
words do (`compare_bigEndian64_append`), and the words written for integers and for numbers compare
as the integers (`compare_intKey`) and as the numbers in the total order (`compare_orderKey`).
-/

namespace ResumableQuery

/-! ### Comparisons of natural numbers -/

/-- Two numbers compare by their quotients first and then by their remainders. -/
theorem compare_eq_then_mod (m a b : Nat) :
    compare a b = (compare (a / m) (b / m)).then (compare (a % m) (b % m)) := by
  have ha := Nat.div_add_mod a m
  have hb := Nat.div_add_mod b m
  rcases Nat.eq_zero_or_pos m with rfl | hm
  · simp
  · have hra := Nat.mod_lt a hm
    have hrb := Nat.mod_lt b hm
    rcases Nat.lt_trichotomy (a / m) (b / m) with h | h | h
    · have hlt : a < b := by
        have := Nat.mul_le_mul_left m (Nat.succ_le_of_lt h)
        rw [Nat.mul_succ] at this
        omega
      rw [Nat.compare_eq_lt.2 h, Nat.compare_eq_lt.2 hlt]
      rfl
    · rw [Nat.compare_eq_eq.2 h, Ordering.eq_then]
      rcases Nat.lt_trichotomy (a % m) (b % m) with h' | h' | h'
      · rw [Nat.compare_eq_lt.2 h', Nat.compare_eq_lt.2 (by rw [h] at ha; omega)]
      · rw [Nat.compare_eq_eq.2 h', Nat.compare_eq_eq.2 (by rw [h] at ha; omega)]
      · rw [Nat.compare_eq_gt.2 h', Nat.compare_eq_gt.2 (by rw [h] at ha; omega)]
    · have hlt : b < a := by
        have := Nat.mul_le_mul_left m (Nat.succ_le_of_lt h)
        rw [Nat.mul_succ] at this
        omega
      rw [Nat.compare_eq_gt.2 h, Nat.compare_eq_gt.2 hlt]
      rfl

/-! ### Bytes, most significant first -/

theorem compare_uint8_ofNat (a b : Nat) :
    compare (UInt8.ofNat (a % 256)) (UInt8.ofNat (b % 256)) = compare (a % 256) (b % 256) := by
  have toNat (n : Nat) : (UInt8.ofNat (n % 256)).toNat = n % 256 := by simp
  show compareOfLessAndEq _ _ = compareOfLessAndEq _ _
  simp only [compareOfLessAndEq, UInt8.lt_iff_toNat_lt, ← UInt8.toNat_inj, toNat]

/-- The low bytes of two numbers, most significant first, compare as the numbers do. -/
theorem compare_littleEndian_reverse_append (n : Nat) {x y : Nat} (hx : x < 256 ^ n)
    (hy : y < 256 ^ n) (s t : Bytes) :
    compare ((littleEndian n x).reverse ++ s) ((littleEndian n y).reverse ++ t) =
      (compare x y).then (compare s t) := by
  induction n generalizing x y s t with
  | zero =>
    obtain rfl : x = 0 := by simpa using hx
    obtain rfl : y = 0 := by simpa using hy
    rfl
  | succ n ih =>
    have hx' : x / 256 < 256 ^ n := Nat.div_lt_of_lt_mul (by rwa [Nat.pow_succ'] at hx)
    have hy' : y / 256 < 256 ^ n := Nat.div_lt_of_lt_mul (by rwa [Nat.pow_succ'] at hy)
    simp only [littleEndian, List.reverse_cons, List.append_assoc, List.singleton_append]
    rw [ih hx' hy', List.compare_cons_cons, compare_uint8_ofNat, ← Ordering.then_assoc,
      ← compare_eq_then_mod]

theorem UInt64.compare_toNat (x y : UInt64) : compare x.toNat y.toNat = compare x y := by
  show compareOfLessAndEq _ _ = compareOfLessAndEq _ _
  simp only [compareOfLessAndEq, UInt64.lt_iff_toNat_lt, UInt64.toNat_inj]

/-- The bytes of two words compare as the words do. -/
theorem compare_bigEndian64_append (x y : UInt64) (s t : Bytes) :
    compare (bigEndian64 x ++ s) (bigEndian64 y ++ t) = (compare x y).then (compare s t) := by
  rw [← UInt64.compare_toNat]
  exact compare_littleEndian_reverse_append 8 (by simpa using x.toNat_lt)
    (by simpa using y.toNat_lt) s t

/-! ### The sign bit -/

/-- Flipping the sign bit moves a word by half of the range. -/
theorem toNat_xor_signBit (x : UInt64) :
    (x ^^^ Binary64.signBit).toNat =
      if x.toNat < 2 ^ 63 then x.toNat + 2 ^ 63 else x.toNat - 2 ^ 63 := by
  have hlt := x.toNat_lt
  have hxor : (x ^^^ Binary64.signBit).toNat = x.toNat ^^^ 2 ^ 63 := UInt64.toNat_xor x _
  have low : (x.toNat ^^^ 2 ^ 63) % 2 ^ 63 = x.toNat % 2 ^ 63 := by
    rw [Nat.xor_mod_two_pow, Nat.mod_self, Nat.xor_zero]
  have high : (x.toNat ^^^ 2 ^ 63) / 2 ^ 63 = x.toNat / 2 ^ 63 ^^^ 1 := by
    rw [Nat.xor_div_two_pow, Nat.div_self (by decide)]
  rw [hxor]
  by_cases hx : x.toNat < 2 ^ 63
  · rw [if_pos hx]
    rw [Nat.div_eq_of_lt hx, Nat.zero_xor] at high
    omega
  · rw [if_neg hx]
    rw [(by omega : x.toNat / 2 ^ 63 = 1), Nat.xor_self] at high
    omega

theorem signBit_le_iff (x : UInt64) : Binary64.signBit ≤ x ↔ 2 ^ 63 ≤ x.toNat := by
  rw [UInt64.le_iff_toNat_le]
  rfl

/-! ### Integers -/

/-- The word written for an integer is the integer moved up by the weight of the sign bit. -/
theorem toNat_intKey (i : Int64) : ((TupleValue.intKey i).toNat : Int) = i.toInt + 2 ^ 63 := by
  have hlt := i.toUInt64.toNat_lt
  have hi : i.toInt = (i.toUInt64.toNat : Int).bmod (2 ^ 64) := by
    rw [Int64.toInt, BitVec.toInt_eq_toNat_bmod]
    rfl
  rw [TupleValue.intKey, toNat_xor_signBit, hi, Int.bmod_def]
  split <;> omega

theorem compare_intKey (i j : Int64) :
    compare (TupleValue.intKey i) (TupleValue.intKey j) = compare i j := by
  have hi := toNat_intKey i
  have hj := toNat_intKey j
  show compareOfLessAndEq _ _ = compareOfLessAndEq _ _
  have lt : TupleValue.intKey i < TupleValue.intKey j ↔ i < j := by
    rw [UInt64.lt_iff_toNat_lt, Int64.lt_iff_toInt_lt]
    omega
  have eq : TupleValue.intKey i = TupleValue.intKey j ↔ i = j := by
    rw [← UInt64.toNat_inj, ← Int64.toInt_inj]
    omega
  simp only [compareOfLessAndEq, lt, eq]

/-! ### Numbers -/

namespace Binary64

/-- The place of a number in the total order: a number without sign bit stands at its bits, and one
with a sign bit as far below zero, so that negative zero comes right before zero. -/
def place (x : Binary64) : Int :=
  if x.isNegative then 2 ^ 63 - 1 - (x.bits.toNat : Int) else x.bits.toNat

theorem isNegative_iff (x : Binary64) : x.isNegative = true ↔ 2 ^ 63 ≤ x.bits.toNat := by
  rw [isNegative, decide_eq_true_iff, signBit_le_iff]

/-- The word written for a number is its place moved up by the weight of the sign bit. -/
theorem toNat_orderKey (x : Binary64) : (x.orderKey.toNat : Int) = x.place + 2 ^ 63 := by
  have hlt := x.bits.toNat_lt
  by_cases h : x.isNegative = true
  · have := x.isNegative_iff.1 h
    rw [orderKey, place, if_pos h, if_pos h, UInt64.toNat_not]
    simp only [UInt64.size]
    omega
  · have := mt x.isNegative_iff.2 h
    rw [orderKey, place, if_neg h, if_neg h, toNat_xor_signBit, if_pos (by omega)]
    omega

theorem place_injective : Function.Injective place := by
  intro x y h
  have hx := x.isNegative_iff
  have hy := y.isNegative_iff
  have hxlt := x.bits.toNat_lt
  have hylt := y.bits.toNat_lt
  have bits : x.bits.toNat = y.bits.toNat := by
    unfold place at h
    split at h <;> split at h <;> rename_i h₁ h₂ <;> simp only [hx, hy] at h₁ h₂ <;> omega
  cases x; cases y
  exact congrArg Binary64.mk (UInt64.toNat_inj.1 bits)

theorem compare_orderKey (x y : Binary64) :
    compare x.orderKey y.orderKey = compare x.place y.place := by
  have hx := x.toNat_orderKey
  have hy := y.toNat_orderKey
  show compareOfLessAndEq _ _ = compareOfLessAndEq _ _
  have lt : x.orderKey < y.orderKey ↔ x.place < y.place := by
    rw [UInt64.lt_iff_toNat_lt]
    omega
  have eq : x.orderKey = y.orderKey ↔ x.place = y.place := by
    rw [← UInt64.toNat_inj]
    omega
  simp only [compareOfLessAndEq, lt, eq]

theorem orderKey_injective : Function.Injective orderKey := by
  intro x y h
  have hx := x.toNat_orderKey
  have hy := y.toNat_orderKey
  rw [h] at hx
  exact place_injective (by omega)

end Binary64

end ResumableQuery
