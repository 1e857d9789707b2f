import Mathlib.Data.List.Nodup
import ResumableQuery.Proofs.Except
import ResumableQuery.Text.Base64Url
import ResumableQuery.Text.Utf8

/-!
# Reading back base64

What `encode` writes is read back by `decode`: each symbol stands for its number, the symbols are
their own UTF-8 bytes, and three bytes are what their four symbols say.  The last group is read
apart from the others, so the induction goes over the groups from the front and meets the last one
in three lengths.

The other way round, whatever `decode` reads was written by `encode`, so each byte string has one
text and each text at most one byte string.  `Spelled` says which texts these are.
-/

namespace ResumableQuery.Base64Url

/-! ### Symbols -/

theorem value_symbol {n : Nat} (h : n < 64) : value (symbol n) = some n := by
  revert n
  decide

theorem symbol_ne_pad {n : Nat} (h : n < 64) : symbol n ≠ pad := by
  revert n
  decide

theorem symbol_lt {n : Nat} (h : n < 64) : (symbol n).toNat < 128 := by
  revert n
  decide

theorem valueAt_symbol (offset : Nat) {n : Nat} (h : n < 64) :
    valueAt offset (symbol n) = .ok n := by
  rw [valueAt, value_symbol h]

/-- The numbers that three bytes are written as. -/
theorem sextets_lt (a b c : UInt8) :
    a.toNat / 4 < 64 ∧ a.toNat % 4 * 16 + b.toNat / 16 < 64 ∧ b.toNat % 16 * 4 + c.toNat / 64 < 64 ∧
      c.toNat % 64 < 64 ∧ a.toNat % 4 * 16 < 64 ∧ b.toNat % 16 * 4 < 64 := by
  have ha := a.toNat_lt
  have hb := b.toNat_lt
  have hc := c.toNat_lt
  omega

/-! ### Bytes of a group -/

theorem firstByte_sextets (a : UInt8) (n : Nat) (h : n < 16) :
    firstByte (a.toNat / 4) (a.toNat % 4 * 16 + n) = a := by
  have : a.toNat / 4 * 4 + (a.toNat % 4 * 16 + n) / 16 = a.toNat := by omega
  rw [firstByte, this, UInt8.ofNat_toNat]

theorem secondByte_sextets (m : Nat) (b : UInt8) (n : Nat) (h : n < 4) :
    secondByte (m * 16 + b.toNat / 16) (b.toNat % 16 * 4 + n) = b := by
  have hb := b.toNat_lt
  have : (m * 16 + b.toNat / 16) % 16 * 16 + (b.toNat % 16 * 4 + n) / 4 = b.toNat := by omega
  rw [secondByte, this, UInt8.ofNat_toNat]

theorem thirdByte_sextets (m : Nat) (c : UInt8) :
    thirdByte (m * 4 + c.toNat / 64) (c.toNat % 64) = c := by
  have hc := c.toNat_lt
  have : (m * 4 + c.toNat / 64) % 4 * 64 + c.toNat % 64 = c.toNat := by omega
  rw [thirdByte, this, UInt8.ofNat_toNat]

/-! ### Groups -/

theorem lastGroup_symbols (offset index : Nat) {l : List Nat} (h : ∀ n ∈ l, n < 64) :
    lastGroup offset index 0 (l.map symbol) = .ok (l, 0) := by
  induction l generalizing index with
  | nil => rfl
  | cons n l ih =>
    have hn : n < 64 := h n List.mem_cons_self
    have ih := ih (index + 1) fun k hk => h k (List.mem_cons_of_mem _ hk)
    rw [List.map_cons, lastGroup, if_neg (symbol_ne_pad hn), if_neg (by omega),
      valueAt_symbol _ hn, ih]
    rfl

theorem decodeLast_one (offset : Nat) (a : UInt8) :
    decodeLast offset (symbols [a]) = .ok [a] := by
  obtain ⟨h₁, -, -, -, h₂, -⟩ := sextets_lt a a a
  have hl := lastGroup_symbols offset 0 (l := [a.toNat / 4, a.toNat % 4 * 16])
    (by simp only [List.mem_cons, List.not_mem_nil, or_false]; omega)
  rw [List.map_cons, List.map_cons, List.map_nil] at hl
  rw [symbols, decodeLast, hl]
  show (if a.toNat % 4 * 16 % 16 = 0 then _ else _) = _
  rw [if_pos (by omega)]
  exact congrArg (fun x => Except.ok [x]) (firstByte_sextets a 0 (by omega))

theorem decodeLast_two (offset : Nat) (a b : UInt8) :
    decodeLast offset (symbols [a, b]) = .ok [a, b] := by
  have hb := b.toNat_lt
  obtain ⟨h₁, h₂, -, -, -, h₃⟩ := sextets_lt a b b
  have hl := lastGroup_symbols offset 0
    (l := [a.toNat / 4, a.toNat % 4 * 16 + b.toNat / 16, b.toNat % 16 * 4])
    (by simp only [List.mem_cons, List.not_mem_nil, or_false]; omega)
  simp only [List.map_cons, List.map_nil] at hl
  rw [symbols, decodeLast, hl]
  show (if b.toNat % 16 * 4 % 4 = 0 then _ else _) = _
  rw [if_pos (by omega), firstByte_sextets a _ (by omega)]
  exact congrArg (fun x => Except.ok [a, x]) (secondByte_sextets _ b 0 (by omega))

theorem decodeLast_three (offset : Nat) (a b c : UInt8) :
    decodeLast offset (symbols [a, b, c]) = .ok [a, b, c] := by
  have hb := b.toNat_lt
  have hc := c.toNat_lt
  obtain ⟨h₁, h₂, h₃, h₄, -, -⟩ := sextets_lt a b c
  have hl := lastGroup_symbols offset 0
    (l := [a.toNat / 4, a.toNat % 4 * 16 + b.toNat / 16, b.toNat % 16 * 4 + c.toNat / 64,
      c.toNat % 64])
    (by simp only [List.mem_cons, List.not_mem_nil, or_false]; omega)
  simp only [List.map_cons, List.map_nil] at hl
  rw [symbols, symbols, decodeLast, hl]
  show Except.ok [firstByte _ _, secondByte _ _, thirdByte _ _] = _
  rw [firstByte_sextets a _ (by omega), secondByte_sextets _ b _ (by omega), thirdByte_sextets]

/-- A group is read on its own where symbols follow it. -/
theorem decodeFrom_group (offset : Nat) (a b c : UInt8) {more rest : Bytes} (hm : more ≠ [])
    (h : decodeFrom (offset + 4) more = .ok rest) :
    decodeFrom offset (symbol (a.toNat / 4) :: symbol (a.toNat % 4 * 16 + b.toNat / 16) ::
      symbol (b.toNat % 16 * 4 + c.toNat / 64) :: symbol (c.toNat % 64) :: more) =
      .ok (a :: b :: c :: rest) := by
  obtain ⟨h₁, h₂, h₃, h₄, -, -⟩ := sextets_lt a b c
  have hb := b.toNat_lt
  have hc := c.toNat_lt
  obtain ⟨e, more, rfl⟩ := List.exists_cons_of_ne_nil hm
  rw [decodeFrom, valueAt_symbol _ h₁, valueAt_symbol _ h₂, valueAt_symbol _ h₃,
    valueAt_symbol _ h₄, h]
  show Except.ok (firstByte _ _ :: secondByte _ _ :: thirdByte _ _ :: rest) = _
  rw [firstByte_sextets a _ (by omega), secondByte_sextets _ b _ (by omega), thirdByte_sextets]

theorem symbols_ne_nil (a : UInt8) (b : Bytes) : symbols (a :: b) ≠ [] := by
  rcases b with _ | ⟨b, _ | ⟨c, rest⟩⟩ <;> simp [symbols]

theorem decodeFrom_symbols (offset : Nat) (b : Bytes) : decodeFrom offset (symbols b) = .ok b := by
  induction b using symbols.induct generalizing offset with
  | case1 => rfl
  | case2 a => exact decodeLast_one offset a
  | case3 a b => exact decodeLast_two offset a b
  | case4 a b c rest ih =>
    cases rest with
    | nil => exact decodeLast_three offset a b c
    | cons d rest => exact decodeFrom_group offset a b c (symbols_ne_nil d rest) (ih (offset + 4))

/-! ### Texts -/

theorem length_symbols_mod (b : Bytes) : (symbols b).length % 4 ≠ 1 := by
  induction b using symbols.induct with
  | case1 | case2 | case3 => simp [symbols]
  | case4 a b c rest ih =>
    simp only [symbols, List.length_cons]
    omega

theorem lt_of_mem_symbols {b : Bytes} {s : UInt8} (h : s ∈ symbols b) : s.toNat < 128 := by
  induction b using symbols.induct with
  | case1 => simp [symbols] at h
  | case2 a =>
    obtain ⟨h₁, -, -, -, h₂, -⟩ := sextets_lt a a a
    simp only [symbols, List.mem_cons, List.not_mem_nil, or_false] at h
    rcases h with rfl | rfl
    · exact symbol_lt h₁
    · exact symbol_lt h₂
  | case3 a b =>
    obtain ⟨h₁, h₂, -, -, -, h₃⟩ := sextets_lt a b b
    simp only [symbols, List.mem_cons, List.not_mem_nil, or_false] at h
    rcases h with rfl | rfl | rfl
    · exact symbol_lt h₁
    · exact symbol_lt h₂
    · exact symbol_lt h₃
  | case4 a b c rest ih =>
    obtain ⟨h₁, h₂, h₃, h₄, -, -⟩ := sextets_lt a b c
    simp only [symbols, List.mem_cons] at h
    rcases h with rfl | rfl | rfl | rfl | h
    · exact symbol_lt h₁
    · exact symbol_lt h₂
    · exact symbol_lt h₃
    · exact symbol_lt h₄
    · exact ih h

theorem utf8EncodeChar_ascii {n : Nat} (h : n < 128) :
    String.utf8EncodeChar (Char.ofNat n) = [UInt8.ofNat n] := by
  revert n
  decide

/-- The symbols are the UTF-8 bytes of the text that they make up. -/
theorem utf8_encode (b : Bytes) : Text.utf8 (encode b) = symbols b := by
  have ascii : ∀ l : Bytes, (∀ s ∈ l, s.toNat < 128) →
      (l.map fun s => Char.ofNat s.toNat).flatMap String.utf8EncodeChar = l := by
    intro l hl
    induction l with
    | nil => rfl
    | cons s l ih =>
      rw [List.map_cons, List.flatMap_cons, utf8EncodeChar_ascii (hl s List.mem_cons_self),
        ih fun t ht => hl t (List.mem_cons_of_mem _ ht), UInt8.ofNat_toNat]
      rfl
  rw [Text.utf8, encode, String.toList_ofList]
  exact ascii _ fun s hs => lt_of_mem_symbols hs

/-- Reading back what was written. -/
theorem decode_encode (b : Bytes) : decode (Text.utf8 (encode b)) = .ok b := by
  rw [utf8_encode, decode, if_neg fun h => length_symbols_mod b h.1]
  exact decodeFrom_symbols 0 b

/-! ### Only what was written is read -/

theorem symbol_of_value {b : UInt8} {v : Nat} (h : value b = some v) : v < 64 ∧ symbol v = b := by
  have byte {k : Nat} (hk : k = b.toNat) : UInt8.ofNat k = b := by rw [hk, UInt8.ofNat_toNat]
  unfold value at h
  simp only at h
  split at h
  · cases h
    exact ⟨by omega, by rw [symbol, if_pos (by omega), byte (by omega)]⟩
  split at h
  · cases h
    refine ⟨by omega, ?_⟩
    rw [symbol, if_neg (by omega), if_pos (by omega), byte (by omega)]
  split at h
  · cases h
    refine ⟨by omega, ?_⟩
    rw [symbol, if_neg (by omega), if_neg (by omega), if_pos (by omega), byte (by omega)]
  split at h
  · rename_i hb
    cases h
    exact ⟨by decide, byte hb.symm⟩
  split at h
  · rename_i hb
    cases h
    exact ⟨by decide, byte hb.symm⟩
  · cases h

theorem symbol_of_valueAt {offset v : Nat} {b : UInt8} (h : valueAt offset b = .ok v) :
    v < 64 ∧ symbol v = b := by
  unfold valueAt at h
  split at h
  · rename_i hv
    cases h
    exact symbol_of_value hv
  · cases h

theorem toNat_firstByte {v : Nat} (w : Nat) (hv : v < 64) (hw : w < 64) :
    (firstByte v w).toNat = v * 4 + w / 16 :=
  UInt8.toNat_ofNat_of_lt' (show _ < 256 by omega)

theorem toNat_secondByte (w : Nat) {x : Nat} (hx : x < 64) :
    (secondByte w x).toNat = w % 16 * 16 + x / 4 :=
  UInt8.toNat_ofNat_of_lt' (show _ < 256 by omega)

theorem toNat_thirdByte (x : Nat) {y : Nat} (hy : y < 64) :
    (thirdByte x y).toNat = x % 4 * 64 + y :=
  UInt8.toNat_ofNat_of_lt' (show _ < 256 by omega)

section Groups

variable {v w x y : Nat} (hv : v < 64) (hw : w < 64) (hx : x < 64) (hy : y < 64)

include hv hw

theorem symbols_one (hstray : w % 16 = 0) :
    symbols [firstByte v w] = [symbol v, symbol w] := by
  have h₁ : (v * 4 + w / 16) / 4 = v := by omega
  have h₂ : (v * 4 + w / 16) % 4 * 16 = w := by omega
  rw [symbols, toNat_firstByte w hv hw, h₁, h₂]

include hx

theorem symbols_two (hstray : x % 4 = 0) :
    symbols [firstByte v w, secondByte w x] = [symbol v, symbol w, symbol x] := by
  have h₁ : (v * 4 + w / 16) / 4 = v := by omega
  have h₂ : (v * 4 + w / 16) % 4 * 16 + (w % 16 * 16 + x / 4) / 16 = w := by omega
  have h₃ : (w % 16 * 16 + x / 4) % 16 * 4 = x := by omega
  rw [symbols, toNat_firstByte w hv hw, toNat_secondByte w hx, h₁, h₂, h₃]

include hy

theorem symbols_three (rest : Bytes) :
    symbols (firstByte v w :: secondByte w x :: thirdByte x y :: rest) =
      symbol v :: symbol w :: symbol x :: symbol y :: symbols rest := by
  have h₁ : (v * 4 + w / 16) / 4 = v := by omega
  have h₂ : (v * 4 + w / 16) % 4 * 16 + (w % 16 * 16 + x / 4) / 16 = w := by omega
  have h₃ : (w % 16 * 16 + x / 4) % 16 * 4 + (x % 4 * 64 + y) / 64 = x := by omega
  have h₄ : (x % 4 * 64 + y) % 64 = y := by omega
  rw [symbols, toNat_firstByte w hv hw, toNat_secondByte w hx, toNat_thirdByte x hy, h₁, h₂, h₃, h₄]

end Groups

theorem eq_map_of_lastGroup {offset index pads : Nat} {group : Bytes} {vs : List Nat}
    (h : lastGroup offset index pads group = .ok (vs, 0)) :
    pads = 0 ∧ group = vs.map symbol ∧ ∀ v ∈ vs, v < 64 := by
  induction group generalizing index pads vs with
  | nil =>
    cases h
    exact ⟨rfl, rfl, nofun⟩
  | cons b rest ih =>
    rw [lastGroup] at h
    split at h
    · split at h
      · cases h
      · exact absurd (ih h).1 (Nat.succ_ne_zero pads)
    · split at h
      · cases h
      · obtain ⟨v, hv, h⟩ := Except.exists_of_bind_eq_ok h
        obtain ⟨⟨vs', pads'⟩, hrest, h⟩ := Except.exists_of_bind_eq_ok h
        cases h
        obtain ⟨hpads, hgroup, hlt⟩ := ih hrest
        obtain ⟨hlt', rfl⟩ := symbol_of_valueAt hv
        exact ⟨hpads, congrArg (symbol v :: ·) hgroup, List.forall_mem_cons.2 ⟨hlt', hlt⟩⟩

theorem symbols_of_decodeLast {offset : Nat} {group b : Bytes} (hlen : group.length ≤ 4)
    (h : decodeLast offset group = .ok b) : symbols b = group := by
  obtain ⟨⟨vs, pads⟩, hgroup, h⟩ := Except.exists_of_bind_eq_ok h
  simp only at h
  split at h
  · cases h
  · rename_i hshort
    split at h
    · cases h
    · rename_i hpads
      obtain rfl : pads = 0 := Nat.eq_zero_of_not_pos hpads
      obtain ⟨-, rfl, hlt⟩ := eq_map_of_lastGroup hgroup
      rw [List.length_map] at hlen
      match vs with
      | [] => exact absurd Nat.two_pos hshort
      | [v] => exact absurd Nat.one_lt_two hshort
      | [v, w] =>
        simp only [List.forall_mem_cons] at hlt
        simp only at h
        split at h
        · cases h
          exact symbols_one hlt.1 hlt.2.1 (by assumption)
        · cases h
      | [v, w, x] =>
        simp only [List.forall_mem_cons] at hlt
        simp only at h
        split at h
        · cases h
          exact symbols_two hlt.1 hlt.2.1 hlt.2.2.1 (by assumption)
        · cases h
      | [v, w, x, y] =>
        simp only [List.forall_mem_cons] at hlt
        cases h
        exact symbols_three hlt.1 hlt.2.1 hlt.2.2.1 hlt.2.2.2.1 []
      | _ :: _ :: _ :: _ :: _ :: _ =>
        simp only [List.length_cons] at hlen
        omega

theorem symbols_of_decodeFrom {offset : Nat} {text b : Bytes} (h : decodeFrom offset text = .ok b) :
    symbols b = text := by
  induction offset, text using decodeFrom.induct generalizing b with
  | case1 =>
    cases h
    rfl
  | case2 offset s₁ s₂ s₃ s₄ s₅ rest ih =>
    rw [decodeFrom] at h
    obtain ⟨v, hv, h⟩ := Except.exists_of_bind_eq_ok h
    obtain ⟨w, hw, h⟩ := Except.exists_of_bind_eq_ok h
    obtain ⟨x, hx, h⟩ := Except.exists_of_bind_eq_ok h
    obtain ⟨y, hy, h⟩ := Except.exists_of_bind_eq_ok h
    obtain ⟨more, hmore, h⟩ := Except.exists_of_bind_eq_ok h
    cases h
    obtain ⟨hv', rfl⟩ := symbol_of_valueAt hv
    obtain ⟨hw', rfl⟩ := symbol_of_valueAt hw
    obtain ⟨hx', rfl⟩ := symbol_of_valueAt hx
    obtain ⟨hy', rfl⟩ := symbol_of_valueAt hy
    rw [symbols_three hv' hw' hx' hy', ih hmore]
  | case3 offset group hnil hlong =>
    have hlen : group.length ≤ 4 := by
      match group with
      | [] | [_] | [_, _] | [_, _, _] | [_, _, _, _] => simp
      | a :: b :: c :: d :: e :: rest => exact absurd rfl (hlong a b c d e rest)
    rw [decodeFrom.eq_def] at h
    split at h
    · exact absurd rfl hnil
    · exact absurd rfl (hlong _ _ _ _ _ _)
    · exact symbols_of_decodeLast hlen h

/-- A byte string is read exactly if it is made up of the symbols of what is read. -/
theorem decode_eq_ok_iff {text b : Bytes} : decode text = .ok b ↔ symbols b = text := by
  constructor
  · intro h
    unfold decode at h
    simp only at h
    split at h
    · cases h
    · exact symbols_of_decodeFrom h
  · rintro rfl
    rw [← utf8_encode]
    exact decode_encode b


/-! ### The spelling of base64 -/

/-- The letters of the alphabet; each stands for its place. -/
def alphabet : List Char :=
  "ABCDEFGHIJKLMNOPQRSTUVWXYZabcdefghijklmnopqrstuvwxyz0123456789-_".toList

/-- A text is base64 without padding: groups of four letters, of which the last one may be shorter
but not a single letter.  Bits of the last letter that no byte takes up are zero. -/
inductive Spelled : List Char → Prop
  | nil : Spelled []
  | two {a b : Char} (letters : ∀ x ∈ [a, b], x ∈ alphabet) (unused : alphabet.idxOf b % 16 = 0) :
      Spelled [a, b]
  | three {a b c : Char} (letters : ∀ x ∈ [a, b, c], x ∈ alphabet)
      (unused : alphabet.idxOf c % 4 = 0) : Spelled [a, b, c]
  | four {a b c d : Char} {rest : List Char} (letters : ∀ x ∈ [a, b, c, d], x ∈ alphabet)
      (rest_spelled : Spelled rest) : Spelled (a :: b :: c :: d :: rest)

/-- The letter at a place of the alphabet. -/
def letter (n : Nat) : Char := Char.ofNat (symbol n).toNat

theorem alphabet_eq : alphabet = (List.range 64).map letter := by decide +kernel

theorem nodup_alphabet : alphabet.Nodup := by decide +kernel

theorem idxOf_letter {n : Nat} (h : n < 64) : alphabet.idxOf (letter n) = n := by
  have hlen : n < alphabet.length := by rwa [alphabet_eq, List.length_map, List.length_range]
  have hget : alphabet[n] = letter n := by simp [alphabet_eq]
  rw [← hget, nodup_alphabet.idxOf_getElem]

theorem letter_mem {n : Nat} (h : n < 64) : letter n ∈ alphabet := by
  rw [alphabet_eq]
  exact List.mem_map_of_mem (List.mem_range.2 h)

theorem exists_letter_eq {c : Char} (h : c ∈ alphabet) : ∃ n < 64, letter n = c := by
  rw [alphabet_eq] at h
  obtain ⟨n, hn, hc⟩ := List.mem_map.1 h
  exact ⟨n, List.mem_range.1 hn, hc⟩

theorem Spelled.mem_alphabet {text : List Char} (h : Spelled text) : ∀ c ∈ text, c ∈ alphabet := by
  induction h with
  | nil => exact nofun
  | two letters | three letters => exact letters
  | four letters _ ih =>
    simp only [List.forall_mem_cons] at letters ⊢
    exact ⟨letters.1, letters.2.1, letters.2.2.1, letters.2.2.2.1, ih⟩

/-- What is written is base64 without padding. -/
theorem spelled_symbols (b : Bytes) : Spelled ((symbols b).map fun s => Char.ofNat s.toNat) := by
  induction b using symbols.induct with
  | case1 => exact .nil
  | case2 a =>
    obtain ⟨h₁, -, -, -, h₂, -⟩ := sextets_lt a a a
    refine .two (a := letter _) (b := letter _) ?_ ?_
    · simp [letter_mem h₁, letter_mem h₂]
    · rw [idxOf_letter h₂]
      omega
  | case3 a b =>
    obtain ⟨h₁, h₂, -, -, -, h₃⟩ := sextets_lt a b b
    refine .three (a := letter _) (b := letter _) (c := letter _) ?_ ?_
    · simp [letter_mem h₁, letter_mem h₂, letter_mem h₃]
    · rw [idxOf_letter h₃]
      omega
  | case4 a b c rest ih =>
    obtain ⟨h₁, h₂, h₃, h₄, -, -⟩ := sextets_lt a b c
    refine .four (a := letter _) (b := letter _) (c := letter _) (d := letter _) ?_ ih
    simp [letter_mem h₁, letter_mem h₂, letter_mem h₃, letter_mem h₄]

/-- Base64 without padding is written for some byte string. -/
theorem Spelled.exists_symbols {text : List Char} (h : Spelled text) :
    ∃ b, ((symbols b).map fun s => Char.ofNat s.toNat) = text := by
  induction h with
  | nil => exact ⟨[], rfl⟩
  | two letters unused =>
    simp only [List.forall_mem_cons] at letters
    obtain ⟨v, hv, rfl⟩ := exists_letter_eq letters.1
    obtain ⟨w, hw, rfl⟩ := exists_letter_eq letters.2.1
    rw [idxOf_letter hw] at unused
    refine ⟨[firstByte v w], ?_⟩
    rw [symbols_one hv hw unused]
    rfl
  | three letters unused =>
    simp only [List.forall_mem_cons] at letters
    obtain ⟨v, hv, rfl⟩ := exists_letter_eq letters.1
    obtain ⟨w, hw, rfl⟩ := exists_letter_eq letters.2.1
    obtain ⟨x, hx, rfl⟩ := exists_letter_eq letters.2.2.1
    rw [idxOf_letter hx] at unused
    refine ⟨[firstByte v w, secondByte w x], ?_⟩
    rw [symbols_two hv hw hx unused]
    rfl
  | four letters _ ih =>
    simp only [List.forall_mem_cons] at letters
    obtain ⟨v, hv, rfl⟩ := exists_letter_eq letters.1
    obtain ⟨w, hw, rfl⟩ := exists_letter_eq letters.2.1
    obtain ⟨x, hx, rfl⟩ := exists_letter_eq letters.2.2.1
    obtain ⟨y, hy, rfl⟩ := exists_letter_eq letters.2.2.2.1
    obtain ⟨b, rfl⟩ := ih
    refine ⟨firstByte v w :: secondByte w x :: thirdByte x y :: b, ?_⟩
    rw [symbols_three hv hw hx hy]
    rfl

/-- The texts that are written are those that are spelled as base64 without padding. -/
theorem exists_encode_eq_iff {text : String} : (∃ b, encode b = text) ↔ Spelled text.toList := by
  constructor
  · rintro ⟨b, rfl⟩
    rw [encode, String.toList_ofList]
    exact spelled_symbols b
  · intro h
    obtain ⟨b, hb⟩ := h.exists_symbols
    exact ⟨b, by rw [encode, hb, String.ofList_toList]⟩

end ResumableQuery.Base64Url
