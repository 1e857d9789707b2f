import Mathlib
import ResumableQuery.Numeric.Rounding

/-!
# Rounding keeps the order

The whole number nearest to a fraction is no larger than that nearest to a larger fraction
(`roundHalfEven_mono`), and neither is the bit pattern of the nearest magnitude
(`nearestMagnitude_mono`).  Magnitudes with one exponent are rounded to the same steps.  Where the
exponents differ they decide: the significand with the lower one is at most the next power of two,
and the other one has its top bit.
-/

namespace ResumableQuery

theorem twoPow_eq (n : Nat) : twoPow n = 2 ^ n := Nat.one_shiftLeft n

variable {num den num' den' : Nat}

/-! ### Whole numbers -/

theorem roundHalfEven_one (n : Nat) : roundHalfEven n 1 = n := by
  rw [roundHalfEven, Nat.div_one, Nat.mod_one]
  exact if_pos Nat.one_pos

theorem div_le_roundHalfEven (num den : Nat) : num / den ≤ roundHalfEven num den := by
  rw [roundHalfEven]
  split_ifs <;> omega

theorem roundHalfEven_le (num den : Nat) : roundHalfEven num den ≤ num / den + 1 := by
  rw [roundHalfEven]
  split_ifs <;> omega

theorem div_le_div_of_mul_le (hden : 0 < den) (hden' : 0 < den') (h : num * den' ≤ num' * den) :
    num / den ≤ num' / den' := by
  rw [Nat.le_div_iff_mul_le hden']
  refine Nat.le_of_mul_le_mul_right ?_ hden
  calc num / den * den' * den = num / den * den * den' := Nat.mul_right_comm ..
    _ ≤ num * den' := Nat.mul_le_mul_right _ (Nat.div_mul_le_self ..)
    _ ≤ num' * den := h

/-- A fraction with the same whole part as a smaller one has the larger remainder. -/
theorem mod_mul_le_mod_mul (hdiv : num / den = num' / den') (h : num * den' ≤ num' * den) :
    num % den * den' ≤ num' % den' * den := by
  have split_num : num * den' = den * den' * (num' / den') + num % den * den' := by
    rw [← hdiv]
    conv_lhs => rw [← Nat.div_add_mod num den]
    ring
  have split_num' : num' * den = den * den' * (num' / den') + num' % den' * den := by
    conv_lhs => rw [← Nat.div_add_mod num' den']
    ring
  omega

/-- The whole number nearest to a fraction is no larger than that nearest to a larger fraction. -/
theorem roundHalfEven_mono (hden : 0 < den) (hden' : 0 < den') (h : num * den' ≤ num' * den) :
    roundHalfEven num den ≤ roundHalfEven num' den' := by
  rcases (div_le_div_of_mul_le hden hden' h).lt_or_eq with hlt | hdiv
  · calc roundHalfEven num den ≤ num / den + 1 := roundHalfEven_le ..
      _ ≤ num' / den' := hlt
      _ ≤ roundHalfEven num' den' := div_le_roundHalfEven ..
  · -- the remainders decide, by their side of the middle
    have hmod := mod_mul_le_mod_mul hdiv h
    have twice : 2 * (num % den) * den' ≤ 2 * (num' % den') * den := by
      rw [Nat.mul_assoc, Nat.mul_assoc]
      exact Nat.mul_le_mul_left 2 hmod
    have half (hle : den ≤ 2 * (num % den)) : den' ≤ 2 * (num' % den') := by
      have cross : den' * den ≤ 2 * (num' % den') * den := by
        rw [Nat.mul_comm]
        exact (Nat.mul_le_mul_right den' hle).trans twice
      exact Nat.le_of_mul_le_mul_right cross hden
    have above (hlt : den < 2 * (num % den)) : den' < 2 * (num' % den') := by
      have cross : den' * den < 2 * (num' % den') * den := by
        rw [Nat.mul_comm]
        exact (Nat.mul_lt_mul_of_pos_right hlt hden').trans_le twice
      exact Nat.lt_of_mul_lt_mul_right cross
    rw [roundHalfEven, roundHalfEven, hdiv]
    split_ifs <;> omega

/-! ### Magnitudes -/

/-- A significand is at most the next power of two, which it is rounded up to at the end of its
range. -/
theorem roundHalfEven_le_two_pow (num fractionBits : Nat) (hden : 0 < den) :
    roundHalfEven num (den * 2 ^ ((num / den).log2 - fractionBits)) ≤ 2 ^ (fractionBits + 1) := by
  rw [← roundHalfEven_one (2 ^ (fractionBits + 1))]
  refine roundHalfEven_mono (Nat.mul_pos hden (Nat.two_pow_pos _)) Nat.one_pos ?_
  have hlt : num < 2 ^ ((num / den).log2 + 1) * den :=
    (Nat.div_lt_iff_lt_mul hden).1 Nat.lt_log2_self
  have hpow : 2 ^ ((num / den).log2 + 1) ≤
      2 ^ (fractionBits + 1) * 2 ^ ((num / den).log2 - fractionBits) := by
    rw [← Nat.pow_add]
    exact Nat.pow_le_pow_right Nat.two_pos (by omega)
  calc num * 1 ≤ 2 ^ ((num / den).log2 + 1) * den := by omega
    _ ≤ 2 ^ (fractionBits + 1) * 2 ^ ((num / den).log2 - fractionBits) * den :=
      Nat.mul_le_mul_right _ hpow
    _ = 2 ^ (fractionBits + 1) * (den * 2 ^ ((num / den).log2 - fractionBits)) := by
      rw [Nat.mul_assoc, Nat.mul_comm den]

/-- Above the least exponent the significand has its top bit. -/
theorem two_pow_le_roundHalfEven {fractionBits : Nat} (hden : 0 < den)
    (hlog : fractionBits < (num / den).log2) :
    2 ^ fractionBits ≤ roundHalfEven num (den * 2 ^ ((num / den).log2 - fractionBits)) := by
  rw [← roundHalfEven_one (2 ^ fractionBits)]
  refine roundHalfEven_mono Nat.one_pos (Nat.mul_pos hden (Nat.two_pow_pos _)) ?_
  have hquot : num / den ≠ 0 := fun h => by
    rw [h, Nat.log2_zero] at hlog
    cases hlog
  calc 2 ^ fractionBits * (den * 2 ^ ((num / den).log2 - fractionBits))
      = 2 ^ (fractionBits + ((num / den).log2 - fractionBits)) * den := by
        rw [Nat.pow_add, Nat.mul_assoc, Nat.mul_comm den]
    _ = 2 ^ (num / den).log2 * den := by rw [Nat.add_sub_cancel' hlog.le]
    _ ≤ num / den * den := Nat.mul_le_mul_right _ (Nat.log2_self_le hquot)
    _ ≤ num * 1 := by rw [Nat.mul_one]; exact Nat.div_mul_le_self ..

/-- The magnitude nearest to a fraction is no larger than that nearest to a larger fraction. -/
theorem nearestMagnitude_mono (fractionBits infinity : Nat) (hden : 0 < den) (hden' : 0 < den')
    (h : num * den' ≤ num' * den) :
    nearestMagnitude fractionBits infinity num den ≤
      nearestMagnitude fractionBits infinity num' den' := by
  simp only [nearestMagnitude, twoPow_eq]
  refine min_le_min_left _ ?_
  have hlog : (num / den).log2 ≤ (num' / den').log2 := by
    rw [Nat.log2_eq_log_two, Nat.log2_eq_log_two]
    exact Nat.log_mono_right (div_le_div_of_mul_le hden hden' h)
  have le_two_pow := roundHalfEven_le_two_pow num fractionBits hden
  rcases (Nat.sub_le_sub_right hlog fractionBits).lt_or_eq with hlt | heq
  · have hlog' : fractionBits < (num' / den').log2 := by omega
    have two_pow_le := two_pow_le_roundHalfEven hden' hlog'
    generalize (num / den).log2 - fractionBits = k at *
    generalize (num' / den').log2 - fractionBits = k' at *
    calc k * 2 ^ fractionBits + roundHalfEven num (den * 2 ^ k)
        ≤ k * 2 ^ fractionBits + 2 ^ (fractionBits + 1) := Nat.add_le_add_left le_two_pow _
      _ = (k + 1) * 2 ^ fractionBits + 2 ^ fractionBits := by ring
      _ ≤ k' * 2 ^ fractionBits + 2 ^ fractionBits :=
        Nat.add_le_add_right (Nat.mul_le_mul_right _ hlt) _
      _ ≤ k' * 2 ^ fractionBits + roundHalfEven num' (den' * 2 ^ k') :=
        Nat.add_le_add_left two_pow_le _
  · rw [heq]
    refine Nat.add_le_add_left (roundHalfEven_mono (Nat.mul_pos hden (Nat.two_pow_pos _))
      (Nat.mul_pos hden' (Nat.two_pow_pos _)) ?_) _
    rw [← Nat.mul_assoc, ← Nat.mul_assoc]
    exact Nat.mul_le_mul_right _ h

end ResumableQuery
