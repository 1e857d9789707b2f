import Mathlib.Tactic.ByContra
import ResumableQuery.Text.Utf8

/-!
# Reading UTF-8

The sequence of a character is one to four bytes long, and its bytes carry the bits of the code
point (`Spells`).  A character is taken off the front of a byte string exactly if the byte string
begins with its sequence (`takeChar_eq_ok_iff`), so a byte string reads as a text exactly if it is
what the text is written as (`ofUtf8_eq_ok_iff`): overlong sequences, surrogates and numbers beyond
the last code point are no sequences of characters.
-/

namespace ResumableQuery.Text

/-! ### Bytes as numbers -/

theorem isTrailing_iff (b : UInt8) : isTrailing b = true ↔ 128 ≤ b.toNat ∧ b.toNat < 192 := by
  simp [isTrailing, UInt8.le_iff_toNat_le, UInt8.lt_iff_toNat_lt]

theorem secondFits_iff (a b : UInt8) :
    secondFits a b = true ↔ (128 ≤ b.toNat ∧ b.toNat < 192) ∧ (a.toNat = 224 → 160 ≤ b.toNat) ∧
      (a.toNat = 237 → b.toNat < 160) ∧ (a.toNat = 240 → 144 ≤ b.toNat) ∧
      (a.toNat = 244 → b.toNat < 144) := by
  have eq (n : UInt8) : a = n ↔ a.toNat = n.toNat := UInt8.toNat_inj.symm
  simp only [secondFits, eq]
  split
  · simp [UInt8.le_iff_toNat_le, UInt8.lt_iff_toNat_lt, *]
    omega
  split
  · simp [UInt8.le_iff_toNat_le, UInt8.lt_iff_toNat_lt, *]
    omega
  split
  · simp [UInt8.le_iff_toNat_le, UInt8.lt_iff_toNat_lt, *]
    omega
  split
  · simp [UInt8.le_iff_toNat_le, UInt8.lt_iff_toNat_lt, *]
    omega
  · rw [isTrailing_iff]
    simp at *
    omega

theorem ofNat_eq {k : Nat} {a : UInt8} (h : k = a.toNat) : UInt8.ofNat k = a := by
  rw [h, UInt8.ofNat_toNat]

theorem toNat_ofNat_add {k m : Nat} (h : k + m < 256) : (UInt8.ofNat (k + m)).toNat = k + m :=
  UInt8.toNat_ofNat_of_lt' h

section Trailing

variable {k : Nat} (h : k < 64)

include h

theorem trailingBits_ofNat : trailingBits (UInt8.ofNat (k + 128)) = k := by
  rw [trailingBits, toNat_ofNat_add (by omega)]
  omega

theorem isTrailing_ofNat : isTrailing (UInt8.ofNat (k + 128)) = true := by
  rw [isTrailing_iff, toNat_ofNat_add (by omega)]
  omega

theorem secondFits_ofNat {m : Nat} {a : UInt8} (ha : a.toNat = m) (h₁ : m = 224 → 32 ≤ k)
    (h₂ : m = 237 → k < 32) (h₃ : m = 240 → 16 ≤ k) (h₄ : m = 244 → k < 16) :
    secondFits a (UInt8.ofNat (k + 128)) = true := by
  rw [secondFits_iff, toNat_ofNat_add (by omega), ha]
  omega

end Trailing

/-! ### Sequences -/

/-- The bytes are the sequence of a character, whose code point is a number. -/
inductive Spells : Nat → Bytes → Prop
  | one {a : UInt8} (lead : a.toNat < 128) : Spells a.toNat [a]
  | two {a b : UInt8} (lead : 194 ≤ a.toNat ∧ a.toNat < 224) (second : isTrailing b = true) :
      Spells ((a.toNat - 192) * 64 + trailingBits b) [a, b]
  | three {a b c : UInt8} (lead : 224 ≤ a.toNat ∧ a.toNat < 240) (second : secondFits a b = true)
      (third : isTrailing c = true) :
      Spells ((a.toNat - 224) * 4096 + trailingBits b * 64 + trailingBits c) [a, b, c]
  | four {a b c d : UInt8} (lead : 240 ≤ a.toNat ∧ a.toNat < 245) (second : secondFits a b = true)
      (third : isTrailing c = true) (fourth : isTrailing d = true) :
      Spells ((a.toNat - 240) * 262144 + trailingBits b * 4096 + trailingBits c * 64 +
        trailingBits d) [a, b, c, d]

theorem takeChar_of_spells {n : Nat} {s : Bytes} (h : Spells n s) (rest : Bytes) :
    takeChar (s ++ rest) = .ok (Char.ofNat n, rest) := by
  cases h with
  | one lead => simp [takeChar, UInt8.lt_iff_toNat_lt, lead]
  | @two a b lead second =>
    have h₁ : ¬ a.toNat < 128 := by omega
    have h₂ : ¬ a.toNat < 194 := by omega
    simp [takeChar, UInt8.lt_iff_toNat_lt, h₁, h₂, lead, second]
  | @three a b c lead second third =>
    have h₁ : ¬ a.toNat < 128 := by omega
    have h₂ : ¬ a.toNat < 194 := by omega
    have h₃ : ¬ a.toNat < 224 := by omega
    simp [takeChar, UInt8.lt_iff_toNat_lt, h₁, h₂, h₃, lead, second, third]
  | @four a b c d lead second third fourth =>
    have h₁ : ¬ a.toNat < 128 := by omega
    have h₂ : ¬ a.toNat < 194 := by omega
    have h₃ : ¬ a.toNat < 224 := by omega
    have h₄ : ¬ a.toNat < 240 := by omega
    simp [takeChar, UInt8.lt_iff_toNat_lt, h₁, h₂, h₃, h₄, lead, second, third, fourth]

theorem exists_spells_of_takeChar {b rest : Bytes} {c : Char} (h : takeChar b = .ok (c, rest)) :
    ∃ n s, Spells n s ∧ c = Char.ofNat n ∧ b = s ++ rest := by
  unfold takeChar at h
  simp only [UInt8.lt_iff_toNat_lt] at h
  repeat' split at h
  all_goals cases h
  · exact ⟨_, _, .one ‹_›, rfl, rfl⟩
  · exact ⟨_, _, .two ⟨Nat.not_lt.1 ‹_›, ‹_›⟩ ‹_›, rfl, rfl⟩
  · refine ⟨_, _, .three ⟨Nat.not_lt.1 ‹_›, ‹_›⟩ ?_ ‹_›, rfl, rfl⟩
    simpa using ‹¬ (!secondFits _ _) = true›
  · refine ⟨_, _, .four ⟨Nat.not_lt.1 ‹_›, ‹_›⟩ ?_ ?_ ‹_›, rfl, rfl⟩
    · simpa using ‹¬ (!secondFits _ _) = true›
    · simpa using ‹¬ (!isTrailing _) = true›

/-! ### Characters -/

theorem spells_utf8EncodeChar (c : Char) : Spells c.toNat (String.utf8EncodeChar c) := by
  have hv : c.toNat < 0xD800 ∨ 0xDFFF < c.toNat ∧ c.toNat < 0x110000 := c.valid
  have hn : c.val.toNat = c.toNat := rfl
  unfold String.utf8EncodeChar
  simp only [hn]
  generalize c.toNat = n at hv
  have low : n % 64 < 64 := Nat.mod_lt _ (by decide)
  have middle : n / 64 % 64 < 64 := Nat.mod_lt _ (by decide)
  have high : n / 4096 % 64 < 64 := Nat.mod_lt _ (by decide)
  split
  · have hlead : (UInt8.ofNat n).toNat = n := toNat_ofNat_add (k := n) (m := 0) (by omega)
    have h := Spells.one (a := UInt8.ofNat n) (by omega)
    rwa [hlead] at h
  split
  · have hlead := toNat_ofNat_add (k := n / 64 % 32) (m := 192) (by omega)
    have h := Spells.two (a := UInt8.ofNat (n / 64 % 32 + 192)) (by omega) (isTrailing_ofNat low)
    rw [hlead, trailingBits_ofNat low] at h
    rwa [(by omega : (n / 64 % 32 + 192 - 192) * 64 + n % 64 = n)] at h
  split
  · have hlead := toNat_ofNat_add (k := n / 4096 % 16) (m := 224) (by omega)
    have h := Spells.three (a := UInt8.ofNat (n / 4096 % 16 + 224)) (by omega)
      (secondFits_ofNat middle hlead (by omega) (by omega) (by omega) (by omega))
      (isTrailing_ofNat low)
    rw [hlead, trailingBits_ofNat low, trailingBits_ofNat middle] at h
    rwa [(by omega : (n / 4096 % 16 + 224 - 224) * 4096 + n / 64 % 64 * 64 + n % 64 = n)] at h
  · have hlead := toNat_ofNat_add (k := n / 262144 % 8) (m := 240) (by omega)
    have h := Spells.four (a := UInt8.ofNat (n / 262144 % 8 + 240)) (by omega)
      (secondFits_ofNat high hlead (by omega) (by omega) (by omega) (by omega))
      (isTrailing_ofNat middle) (isTrailing_ofNat low)
    rw [hlead, trailingBits_ofNat low, trailingBits_ofNat middle, trailingBits_ofNat high] at h
    rwa [(by omega : (n / 262144 % 8 + 240 - 240) * 262144 + n / 4096 % 64 * 4096 +
      n / 64 % 64 * 64 + n % 64 = n)] at h

namespace Spells

variable {n : Nat} {s : Bytes}

theorem isValidChar (h : Spells n s) : n < 0xD800 ∨ 0xDFFF < n ∧ n < 0x110000 := by
  cases h with
  | one lead => omega
  | two lead second =>
    rw [trailingBits]
    omega
  | three lead second third =>
    rw [secondFits_iff] at second
    rw [trailingBits, trailingBits]
    omega
  | four lead second third fourth =>
    rw [secondFits_iff] at second
    rw [trailingBits, trailingBits, trailingBits]
    omega

theorem utf8EncodeChar_eq (h : Spells n s) : String.utf8EncodeChar (Char.ofNat n) = s := by
  have hn : (Char.ofNat n).val.toNat = n := by
    rw [Char.ofNat, dif_pos h.isValidChar]
    rfl
  unfold String.utf8EncodeChar
  simp only [hn]
  cases h with
  | one lead => rw [if_pos (by omega), ofNat_eq rfl]
  | @two a b lead second =>
    rw [isTrailing_iff] at second
    rw [trailingBits, if_neg (by omega), if_pos (by omega), ofNat_eq (a := a) (by omega),
      ofNat_eq (a := b) (by omega)]
  | @three a b c lead second third =>
    rw [secondFits_iff] at second
    rw [isTrailing_iff] at third
    rw [trailingBits, trailingBits, if_neg (by omega), if_neg (by omega), if_pos (by omega),
      ofNat_eq (a := a) (by omega), ofNat_eq (a := b) (by omega), ofNat_eq (a := c) (by omega)]
  | @four a b c d lead second third fourth =>
    rw [secondFits_iff] at second
    rw [isTrailing_iff] at third fourth
    rw [trailingBits, trailingBits, trailingBits, if_neg (by omega), if_neg (by omega),
      if_neg (by omega), ofNat_eq (a := a) (by omega), ofNat_eq (a := b) (by omega),
      ofNat_eq (a := c) (by omega), ofNat_eq (a := d) (by omega)]

end Spells

theorem takeChar_eq_ok_iff {b rest : Bytes} {c : Char} :
    takeChar b = .ok (c, rest) ↔ b = String.utf8EncodeChar c ++ rest := by
  constructor
  · intro h
    obtain ⟨n, s, hs, rfl, rfl⟩ := exists_spells_of_takeChar h
    rw [hs.utf8EncodeChar_eq]
  · rintro rfl
    rw [takeChar_of_spells (spells_utf8EncodeChar c), Char.ofNat_toNat]

/-! ### Texts -/

theorem chars_nil (done : Nat) : chars done [] = .ok [] := by
  rw [chars]
  rfl

theorem chars_of_takeChar {b rest : Bytes} {c : Char} (h : takeChar b = .ok (c, rest))
    (done : Nat) :
    chars done b = (chars (done + (String.utf8EncodeChar c).length) rest).map (c :: ·) := by
  have hb : b ≠ [] := by
    rintro rfl
    cases h
  rw [chars, List.isEmpty_eq_false_iff.2 hb, if_neg Bool.false_ne_true]
  split
  · rename_i h'
    rw [h] at h'
    cases h'
  · rename_i h'
    rw [h] at h'
    cases h'
    rfl

theorem chars_of_fault {b : Bytes} {length : Option Nat} (h : takeChar b = .error length)
    (hb : b ≠ []) (done : Nat) : chars done b = .error ⟨done, length⟩ := by
  rw [chars, List.isEmpty_eq_false_iff.2 hb, if_neg Bool.false_ne_true]
  split
  · rename_i h'
    rw [h] at h'
    cases h'
    rfl
  · rename_i h'
    rw [h] at h'
    cases h'

theorem chars_flatMap_utf8EncodeChar (done : Nat) (cs : List Char) :
    chars done (cs.flatMap String.utf8EncodeChar) = .ok cs := by
  induction cs generalizing done with
  | nil => exact chars_nil done
  | cons c cs ih =>
    rw [List.flatMap_cons, chars_of_takeChar (takeChar_eq_ok_iff.2 rfl), ih]
    rfl

theorem eq_flatMap_of_chars {done : Nat} {b : Bytes} {cs : List Char}
    (h : chars done b = .ok cs) : b = cs.flatMap String.utf8EncodeChar := by
  induction cs generalizing done b with
  | nil =>
    by_contra hb
    cases htake : takeChar b with
    | error length =>
      rw [chars_of_fault htake hb] at h
      cases h
    | ok r =>
      rw [chars_of_takeChar htake] at h
      cases hrest : chars _ r.2 <;> rw [hrest] at h <;> cases h
  | cons c cs ih =>
    have hb : b ≠ [] := by
      rintro rfl
      rw [chars_nil] at h
      cases h
    cases htake : takeChar b with
    | error length =>
      rw [chars_of_fault htake hb] at h
      cases h
    | ok r =>
      rw [chars_of_takeChar htake] at h
      cases hrest : chars _ r.2 with
      | error =>
        rw [hrest] at h
        cases h
      | ok cs' =>
        rw [hrest] at h
        cases h
        rw [List.flatMap_cons, ← ih hrest]
        exact takeChar_eq_ok_iff.1 htake

/-- A byte string reads as a text exactly if it is what the text is written as. -/
theorem ofUtf8_eq_ok_iff {b : Bytes} {s : String} : ofUtf8 b = .ok s ↔ utf8 s = b := by
  rw [ofUtf8, utf8]
  constructor
  · intro h
    cases hcs : chars 0 b with
    | error =>
      rw [hcs] at h
      cases h
    | ok cs =>
      rw [hcs] at h
      cases h
      rw [String.toList_ofList, eq_flatMap_of_chars hcs]
  · rintro rfl
    rw [chars_flatMap_utf8EncodeChar]
    exact congrArg Except.ok String.ofList_toList

end ResumableQuery.Text
