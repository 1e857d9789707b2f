import ResumableQuery.Proofs.Position
import ResumableQuery.Proofs.Text.Utf8

/-!
# Tokens are exact

A continuation has one byte form and one text, and nothing else is read as a continuation: what is
read is what would be written again.  So callers may compare tokens instead of continuations.  A
text that is not base64 without padding is refused for its spelling; base64 of bytes that are no
byte form is refused after that.
-/

namespace ResumableQuery.Continuation

open Base64Url (Spelled)

theorem toBytes_of_ofBytes {b : Bytes} {c : Continuation} (h : ofBytes b = .ok c) :
    c.toBytes = b := by
  cases b with
  | nil =>
    cases h
    rfl
  | cons tag rest =>
    rw [ofBytes] at h
    split at h
    · rename_i hdone
      obtain ⟨rfl, rfl⟩ := hdone
      cases h
      rfl
    · split at h
      · rename_i hresume
        subst hresume
        cases h
        rfl
      · cases h

theorem ofBytes_eq_ok_iff {b : Bytes} {c : Continuation} : ofBytes b = .ok c ↔ c.toBytes = b := by
  constructor
  · apply toBytes_of_ofBytes
  · rintro rfl
    apply ofBytes_toBytes

theorem toBytes_injective : Function.Injective toBytes := by
  intro c d h
  have hc := ofBytes_toBytes c
  rw [h, ofBytes_toBytes] at hc
  exact (Except.ok.inj hc).symm

/-- A byte string is refused if it starts with neither tag, or goes on after the tag of the end. -/
theorem ofBytes_eq_error_iff {b : Bytes} :
    ofBytes b = .error .format ↔ ∃ tag rest, b = tag :: rest ∧ tag ≠ 1 ∧ (tag = 0 → rest ≠ []) := by
  constructor
  · intro h
    cases b with
    | nil => cases h
    | cons tag rest =>
      rw [ofBytes] at h
      split at h
      · cases h
      · rename_i hdone
        split at h
        · cases h
        · rename_i hresume
          exact ⟨tag, rest, rfl, hresume, fun htag hrest => hdone ⟨htag, hrest⟩⟩
  · rintro ⟨tag, rest, rfl, hresume, hdone⟩
    rw [ofBytes, if_neg fun h => hdone h.1 h.2, if_neg hresume]

theorem decode_utf8_eq_ok_iff {text : String} {b : Bytes} :
    Base64Url.decode (Text.utf8 text) = .ok b ↔ Base64Url.encode b = text := by
  rw [Base64Url.decode_eq_ok_iff, ← Base64Url.utf8_encode]
  constructor
  · intro h
    have hread := Text.ofUtf8_eq_ok_iff.2 h
    rw [Text.ofUtf8_eq_ok_iff.2 rfl] at hread
    exact (Except.ok.inj hread).symm
  · rintro rfl
    rfl

theorem ofBase64_eq_ok_iff {text : String} {c : Continuation} :
    ofBase64 text = .ok c ↔ c.toBase64 = text := by
  constructor
  · intro h
    unfold ofBase64 at h
    split at h
    · rename_i b hb
      rw [toBase64, toBytes_of_ofBytes h]
      exact decode_utf8_eq_ok_iff.1 hb
    · cases h
  · rintro rfl
    apply ofBase64_toBase64

theorem toBase64_injective : Function.Injective toBase64 := by
  intro c d h
  have hc := ofBase64_toBase64 c
  rw [h, ofBase64_toBase64] at hc
  exact (Except.ok.inj hc).symm

theorem ofBytes_ne_base64 (b : Bytes) (fault : Base64Url.Fault) :
    ofBytes b ≠ .error (.base64 fault) := by
  cases b with
  | nil => simp [ofBytes]
  | cons tag rest =>
    rw [ofBytes]
    split
    · simp
    · split <;> simp

/-- The spelling is at fault in exactly the texts that are not base64 without padding. -/
theorem exists_fault_iff {text : String} :
    (∃ fault, ofBase64 text = .error (.base64 fault)) ↔ ¬Spelled text.toList := by
  rw [← Base64Url.exists_encode_eq_iff]
  simp only [← decode_utf8_eq_ok_iff]
  unfold ofBase64
  split
  · rename_i b hb
    simp [hb, ofBytes_ne_base64]
  · rename_i fault hfault
    simp [hfault]

theorem ofBase64_encode (b : Bytes) : ofBase64 (Base64Url.encode b) = ofBytes b := by
  rw [ofBase64, Base64Url.decode_encode]

theorem not_spelled_of_pad {text : List Char} (h : '=' ∈ text) : ¬Spelled text := by
  intro hs
  exact absurd (hs.mem_alphabet '=' h) (by decide)

/-- What is read as a continuation is what is written for it, in bytes and in text.  So tokens are
read back, no two continuations share one, and a text is refused for its spelling unless it is
base64 without padding whose unused bits are zero. -/
theorem tokens_exact :
    (∀ (b : Bytes) (c : Continuation), ofBytes b = .ok c ↔ c.toBytes = b) ∧
    (∀ (text : String) (c : Continuation), ofBase64 text = .ok c ↔ c.toBase64 = text) ∧
    (∀ c : Continuation, ofBytes c.toBytes = .ok c ∧ ofBase64 c.toBase64 = .ok c) ∧
    (∀ c d : Continuation, (c.toBytes = d.toBytes → c = d) ∧ (c.toBase64 = d.toBase64 → c = d)) ∧
    (∀ text : String,
      (∃ fault, ofBase64 text = .error (.base64 fault)) ↔ ¬Spelled text.toList) ∧
    (∀ text : String, '=' ∈ text.toList → ∃ fault, ofBase64 text = .error (.base64 fault)) ∧
    ∀ (tag : UInt8) (rest : Bytes), tag ≠ 1 → (tag = 0 → rest ≠ []) →
      ofBase64 (Base64Url.encode (tag :: rest)) = .error .format := by
  refine ⟨?_, ?_, ?_, ?_, ?_, ?_, ?_⟩
  · intro b c
    apply ofBytes_eq_ok_iff
  · intro text c
    apply ofBase64_eq_ok_iff
  · intro c
    exact ⟨ofBytes_toBytes c, ofBase64_toBase64 c⟩
  · intro c d
    exact ⟨fun h => toBytes_injective h, fun h => toBase64_injective h⟩
  · intro text
    apply exists_fault_iff
  · intro text h
    exact exists_fault_iff.2 (not_spelled_of_pad h)
  · intro tag rest hresume hdone
    rw [ofBase64_encode]
    exact ofBytes_eq_error_iff.2 ⟨tag, rest, rfl, hresume, hdone⟩

/-- The text of the end, and the same text with bits set that no byte takes up. -/
example : done.toBase64 = "AA" ∧ ofBase64 "AB" = .error (.base64 (.lastSymbol 66 1)) := by
  decide +kernel

end ResumableQuery.Continuation
