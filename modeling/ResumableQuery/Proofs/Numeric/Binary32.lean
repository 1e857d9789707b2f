import Mathlib
import ResumableQuery.Numeric.Binary32
import ResumableQuery.Proofs.Numeric.Rounding

/-!
# Single-precision numbers in order

Every operation ends in a rounding step, and rounding yields the bits of a magnitude: a number
without a sign bit that is at most infinity (`IsMagnitude`).  Among such numbers the numerical order
and the total order are both the order of the bits.

Magnitudes with higher bits stand for larger numbers (`IsMagnitude.quanta_mono`), so the operations
keep the order of what they are applied to.  So one less a quotient of at most one is neither
negative nor above one (`value_one_sub_div`).
-/

namespace ResumableQuery

namespace Binary32

/-- The number has no sign bit and is no NaN: its bits are at most those of infinity. -/
def IsMagnitude (x : Binary32) : Prop := x.bits.toNat ≤ 255 * 2 ^ 23

section Order

variable {x y : Binary32}

theorem IsMagnitude.not_isNegative (h : x.IsMagnitude) : x.isNegative = false := by
  have hbits : ¬2 ^ 31 ≤ x.bits.toNat := by
    rw [IsMagnitude] at h
    omega
  exact decide_eq_false hbits

theorem IsMagnitude.not_isNaN (h : x.IsMagnitude) : x.isNaN = false := by
  have hfields : ¬(x.bits.toNat / 2 ^ 23 % 2 ^ 8 = 255 ∧ x.bits.toNat % 2 ^ 23 ≠ 0) := by
    rw [IsMagnitude] at h
    omega
  rw [isNaN, Bool.and_eq_false_iff, beq_eq_false_iff_ne, bne_eq_false_iff_eq]
  by_cases he : x.exponentField = 255
  · exact .inr (not_not.1 fun hf => hfields ⟨he, hf⟩)
  · exact .inl he

theorem IsMagnitude.lt_iff (hx : x.IsMagnitude) (hy : y.IsMagnitude) :
    x.lt y = true ↔ x.bits < y.bits := by
  rw [lt, hx.not_isNaN, hy.not_isNaN, position, position, hx.not_isNegative, hy.not_isNegative,
    UInt32.lt_iff_toNat_lt]
  simp

theorem IsMagnitude.numEq_iff (hx : x.IsMagnitude) (hy : y.IsMagnitude) :
    x.numEq y = true ↔ x = y := by
  rw [numEq, hx.not_isNaN, hy.not_isNaN, position, position, hx.not_isNegative, hy.not_isNegative]
  have bits : x.bits.toNat = y.bits.toNat ↔ x = y := by
    rw [UInt32.toNat_inj]
    exact ⟨fun h => congrArg Binary32.mk h, fun h => congrArg Binary32.bits h⟩
  simpa using bits

/-- The word for the total order is the bits, moved up by the weight of the sign bit. -/
theorem IsMagnitude.toNat_orderKey (hx : x.IsMagnitude) :
    x.orderKey.toNat = x.bits.toNat + 2 ^ 31 := by
  have hxor : (x.bits ^^^ 0x80000000).toNat = x.bits.toNat ^^^ 2 ^ 31 := UInt32.toNat_xor x.bits _
  have low : (x.bits.toNat ^^^ 2 ^ 31) % 2 ^ 31 = x.bits.toNat % 2 ^ 31 := by
    rw [Nat.xor_mod_two_pow, Nat.mod_self, Nat.xor_zero]
  have high : (x.bits.toNat ^^^ 2 ^ 31) / 2 ^ 31 = x.bits.toNat / 2 ^ 31 ^^^ 1 := by
    rw [Nat.xor_div_two_pow, Nat.div_self (by decide)]
  rw [IsMagnitude] at hx
  rw [Nat.div_eq_of_lt (by omega : x.bits.toNat < 2 ^ 31), Nat.zero_xor] at high
  rw [orderKey, IsMagnitude.not_isNegative hx, if_neg (by decide), hxor]
  omega

theorem IsMagnitude.orderKey_lt_iff (hx : x.IsMagnitude) (hy : y.IsMagnitude) :
    x.orderKey < y.orderKey ↔ x.bits < y.bits := by
  rw [UInt32.lt_iff_toNat_lt, UInt32.lt_iff_toNat_lt, hx.toNat_orderKey, hy.toNat_orderKey]
  omega

theorem IsMagnitude.orderKey_eq_iff (hx : x.IsMagnitude) (hy : y.IsMagnitude) :
    x.orderKey = y.orderKey ↔ x = y := by
  rw [← UInt32.toNat_inj, hx.toNat_orderKey, hy.toNat_orderKey]
  refine ⟨fun h => ?_, fun h => by rw [h]⟩
  exact congrArg Binary32.mk (UInt32.toNat_inj.1 (by omega : x.bits.toNat = y.bits.toNat))

end Order

theorem isMagnitude_zero : zero.IsMagnitude := Nat.zero_le _

theorem isMagnitude_round (num den : Nat) : (round num den).IsMagnitude := by
  have hle : nearestMagnitude 23 (255 * twoPow 23) num den ≤ 255 * 2 ^ 23 := Nat.min_le_left ..
  rw [IsMagnitude, round, UInt32.toNat_ofNat']
  omega

theorem isMagnitude_ofNat (n : Nat) : (ofNat n).IsMagnitude := isMagnitude_round ..

theorem isMagnitude_add (x y : Binary32) : (x.add y).IsMagnitude := isMagnitude_round ..

theorem isMagnitude_mul (x y : Binary32) : (x.mul y).IsMagnitude := isMagnitude_round ..

theorem isMagnitude_sqrt (x : Binary32) : x.sqrt.IsMagnitude := isMagnitude_round ..

/-! ### Larger bits, larger numbers -/

section Quanta

variable {x y : Binary32} {num den num' den' m n : Nat}

theorem IsMagnitude.toNat_bits (h : x.IsMagnitude) :
    x.bits.toNat = 2 ^ 23 * x.exponentField + x.fractionField := by
  rw [IsMagnitude] at h
  show x.bits.toNat = 2 ^ 23 * (x.bits.toNat / 2 ^ 23 % 2 ^ 8) + x.bits.toNat % 2 ^ 23
  omega

theorem fractionField_lt (x : Binary32) : x.fractionField < 2 ^ 23 := Nat.mod_lt _ (by decide)

theorem quanta_of_subnormal (h : x.exponentField = 0) : x.quanta = x.fractionField := if_pos h

theorem quanta_of_normal {e : Nat} (h : x.exponentField = e + 1) :
    x.quanta = (2 ^ 23 + x.fractionField) * 2 ^ e := by
  rw [quanta, h, if_neg e.succ_ne_zero, twoPow_eq, twoPow_eq, Nat.add_sub_cancel]

/-- A number is below all numbers with a larger exponent. -/
theorem quanta_lt (x : Binary32) : x.quanta < 2 ^ 23 * 2 ^ x.exponentField := by
  have hfraction := x.fractionField_lt
  cases h : x.exponentField with
  | zero =>
    rw [quanta_of_subnormal h]
    omega
  | succ e =>
    calc x.quanta = (2 ^ 23 + x.fractionField) * 2 ^ e := quanta_of_normal h
      _ < (2 ^ 23 + 2 ^ 23) * 2 ^ e :=
        Nat.mul_lt_mul_of_pos_right (Nat.add_lt_add_left hfraction _) (Nat.two_pow_pos e)
      _ = 2 ^ 23 * 2 ^ (e + 1) := by ring

/-- Of two magnitudes the one with the higher bits is no smaller. -/
theorem IsMagnitude.quanta_mono (hx : x.IsMagnitude) (hy : y.IsMagnitude)
    (h : x.bits.toNat ≤ y.bits.toNat) : x.quanta ≤ y.quanta := by
  rw [hx.toNat_bits, hy.toNat_bits] at h
  have hfraction := x.fractionField_lt
  have hfraction' := y.fractionField_lt
  cases hexponent : y.exponentField with
  | zero =>
    have hzero : x.exponentField = 0 := by omega
    rw [quanta_of_subnormal hexponent, quanta_of_subnormal hzero]
    omega
  | succ e =>
    rw [quanta_of_normal hexponent]
    by_cases heq : x.exponentField = e + 1
    · rw [quanta_of_normal heq]
      exact Nat.mul_le_mul_right _ (by omega)
    · have hle : x.exponentField ≤ e := by omega
      calc x.quanta ≤ 2 ^ 23 * 2 ^ x.exponentField := x.quanta_lt.le
        _ ≤ 2 ^ 23 * 2 ^ e := Nat.mul_le_mul_left _ (Nat.pow_le_pow_right Nat.two_pos hle)
        _ ≤ (2 ^ 23 + y.fractionField) * 2 ^ e :=
          Nat.mul_le_mul_right _ (Nat.le_add_right _ _)

/-- Rounding keeps the order of fractions. -/
theorem quanta_round_mono (hden : 0 < den) (hden' : 0 < den') (h : num * den' ≤ num' * den) :
    (round num den).quanta ≤ (round num' den').quanta := by
  refine (isMagnitude_round num den).quanta_mono (isMagnitude_round num' den') ?_
  have hle := nearestMagnitude_mono 23 (255 * twoPow 23) hden hden' h
  have hlt : nearestMagnitude 23 (255 * twoPow 23) num' den' ≤ 255 * 2 ^ 23 := Nat.min_le_left ..
  rw [round, round, UInt32.toNat_ofNat', UInt32.toNat_ofNat', Nat.mod_eq_of_lt (by omega),
    Nat.mod_eq_of_lt (by omega)]
  exact hle

theorem quanta_ofNat_mono (h : m ≤ n) : (ofNat m).quanta ≤ (ofNat n).quanta := by
  refine quanta_round_mono Nat.one_pos Nat.one_pos ?_
  rw [Nat.mul_one, Nat.mul_one]
  exact Nat.mul_le_mul_right _ h

theorem one_pos : 0 < one := by
  rw [one, twoPow_eq]
  exact Nat.two_pow_pos _

theorem quanta_ofNat_one : (ofNat 1).quanta = one := by decide +kernel

theorem quanta_ofNat_pos (h : 0 < n) : 0 < (ofNat n).quanta :=
  calc 0 < one := one_pos
    _ = (ofNat 1).quanta := quanta_ofNat_one.symm
    _ ≤ (ofNat n).quanta := quanta_ofNat_mono h

/-- A quotient by a number that is no smaller is at most one. -/
theorem quanta_div_le_one (hy : 0 < y.quanta) (h : x.quanta ≤ y.quanta) :
    (x.div y).quanta ≤ one := by
  rw [← quanta_ofNat_one]
  refine quanta_round_mono hy Nat.one_pos ?_
  rw [Nat.mul_one, Nat.one_mul, Nat.mul_comm]
  exact Nat.mul_le_mul_left _ h

end Quanta

/-! ### Values -/

/-- The number that the bits of a finite one stand for. -/
def value (x : Binary32) : ℚ :=
  let magnitude : ℚ := x.quanta / one
  if x.isNegative then -magnitude else magnitude

section Value

variable {x : Binary32} {m n : Nat}

theorem IsMagnitude.value_eq (h : x.IsMagnitude) : x.value = x.quanta / one := by
  rw [value, h.not_isNegative]
  rfl

/-- One less a number that is not larger is neither negative nor larger than one. -/
theorem value_one_sub (h : x.quanta ≤ one) :
    0 ≤ ((ofNat 1).sub x).value ∧ ((ofNat 1).sub x).value ≤ 1 := by
  have hsub : (ofNat 1).sub x = round (one - x.quanta) 1 := by
    rw [sub, quanta_ofNat_one, if_pos h]
  have hle : (round (one - x.quanta) 1).quanta ≤ one :=
    calc (round (one - x.quanta) 1).quanta
        ≤ (ofNat 1).quanta := quanta_round_mono Nat.one_pos Nat.one_pos (by omega)
      _ = one := quanta_ofNat_one
  have hpos : (0 : ℚ) < one := Nat.cast_pos.2 one_pos
  rw [hsub, (isMagnitude_round _ _).value_eq]
  exact ⟨div_nonneg (Nat.cast_nonneg _) hpos.le, (div_le_one hpos).2 (Nat.cast_le.2 hle)⟩

/-- One less the quotient of two whole numbers, of which the second is no smaller. -/
theorem value_one_sub_div (h : m ≤ n) (hn : 0 < n) :
    0 ≤ ((ofNat 1).sub ((ofNat m).div (ofNat n))).value ∧
      ((ofNat 1).sub ((ofNat m).div (ofNat n))).value ≤ 1 :=
  value_one_sub (quanta_div_le_one (quanta_ofNat_pos hn) (quanta_ofNat_mono h))

theorem value_one_sub_two : ((ofNat 1).sub ((ofNat 2).div (ofNat 1))).value = -1 := by
  have bits : (ofNat 1).sub ((ofNat 2).div (ofNat 1)) = (ofNat 1).negate := by decide +kernel
  have negative : (ofNat 1).negate.isNegative = true := by decide +kernel
  have quanta : (ofNat 1).negate.quanta = one := by decide +kernel
  rw [bits, value, negative, quanta, div_self (Nat.cast_ne_zero.2 one_pos.ne')]
  rfl

end Value

end Binary32

end ResumableQuery
