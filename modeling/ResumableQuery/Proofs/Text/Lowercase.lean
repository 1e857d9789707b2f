import Mathlib.Data.List.Induction
import ResumableQuery.Text.Lowercase

/-!
# Lower case of a beginning

The lower case of a text begins with the lower case of its beginning, but for one case
(`lowerFrom_prefix_iff`): a capital sigma that ends the beginning is lower-cased to the final form
there, and to the ordinary one where another letter follows.
-/

namespace ResumableQuery.Text

/-! ### What is looked ahead for -/

theorem reachesCased_cons_of_ignorable {c : Char} (h : caseIgnorablePoints.holds c.toNat = true)
    (cs : List Char) : reachesCased (c :: cs) = reachesCased cs := by
  simp [reachesCased, h]

theorem reachesCased_cons_of_not_ignorable {c : Char}
    (h : caseIgnorablePoints.holds c.toNat = false) (cs : List Char) :
    reachesCased (c :: cs) = casedPoints.holds c.toNat := by
  simp [reachesCased, h]

theorem reachesCased_append_congr {after after' : List Char}
    (h : reachesCased after = reachesCased after') (cs : List Char) :
    reachesCased (cs ++ after) = reachesCased (cs ++ after') := by
  induction cs with
  | nil => exact h
  | cons c cs ih =>
    cases hc : caseIgnorablePoints.holds c.toNat with
    | true =>
      rw [List.cons_append, List.cons_append, reachesCased_cons_of_ignorable hc,
        reachesCased_cons_of_ignorable hc, ih]
    | false =>
      rw [List.cons_append, List.cons_append, reachesCased_cons_of_not_ignorable hc,
        reachesCased_cons_of_not_ignorable hc]

theorem sigma_not_ignorable : caseIgnorablePoints.holds 'Σ'.toNat = false := by decide +kernel

/-! ### Lower case in a context -/

/-- Lower case of characters between those before them, which are given nearest first, and those
after them. -/
def lowerIn (before : List Char) : List Char → List Char → List Char
  | [], _ => []
  | c :: rest, after =>
    (if c = 'Σ' then [lowerSigma before (rest ++ after)] else lowerChar c) ++
      lowerIn (c :: before) rest after

theorem lowerFrom_append (before cs after : List Char) :
    lowerFrom before (cs ++ after) =
      lowerIn before cs after ++ lowerFrom (cs.reverse ++ before) after := by
  induction cs generalizing before with
  | nil => rfl
  | cons c cs ih =>
    rw [List.cons_append, lowerFrom, lowerIn, ih, List.reverse_cons, List.append_assoc,
      List.append_assoc, List.singleton_append]

theorem lowerIn_nil_right (before cs : List Char) : lowerIn before cs [] = lowerFrom before cs := by
  have whole := lowerFrom_append before cs []
  rwa [List.append_nil, lowerFrom, List.append_nil, eq_comm] at whole

theorem lowerIn_append (before cs more after : List Char) :
    lowerIn before (cs ++ more) after =
      lowerIn before cs (more ++ after) ++ lowerIn (cs.reverse ++ before) more after := by
  induction cs generalizing before with
  | nil => rfl
  | cons c cs ih =>
    rw [List.cons_append, lowerIn, lowerIn, ih, List.reverse_cons, List.append_assoc,
      List.append_assoc, List.append_assoc, List.singleton_append]

/-- The characters after a text do not change how many characters its lower case has. -/
theorem length_lowerIn (before cs after after' : List Char) :
    (lowerIn before cs after).length = (lowerIn before cs after').length := by
  induction cs generalizing before with
  | nil => rfl
  | cons c cs ih =>
    rw [lowerIn, lowerIn, List.length_append, List.length_append, ih]
    split <;> rfl

/-- Of the characters after a text, only whether they reach a cased one matters. -/
theorem lowerIn_congr {after after' : List Char} (h : reachesCased after = reachesCased after')
    (before cs : List Char) : lowerIn before cs after = lowerIn before cs after' := by
  induction cs generalizing before with
  | nil => rfl
  | cons c cs ih =>
    rw [lowerIn, lowerIn, ih, lowerSigma, lowerSigma, reachesCased_append_congr h]

/-- In lower case a text has one more character for each dotted capital I. -/
theorem length_lowerFrom (before cs : List Char) :
    (lowerFrom before cs).length = cs.length + cs.countP (·.toNat = dottedCapitalI) := by
  induction cs generalizing before with
  | nil => rfl
  | cons c cs ih =>
    have one : (if c = 'Σ' then [lowerSigma before cs] else lowerChar c).length =
        1 + if c.toNat = dottedCapitalI then 1 else 0 := by
      by_cases hsigma : c = 'Σ'
      · rw [hsigma]
        rfl
      · rw [if_neg hsigma, lowerChar]
        split <;> rfl
    rw [lowerFrom, List.length_append, one, ih, List.countP_cons, List.length_cons]
    simp only [decide_eq_true_eq]
    omega

theorem length_lowercase (word : String) :
    (lowercase word).toList.length =
      word.toList.length + word.toList.countP (·.toNat = dottedCapitalI) := by
  rw [lowercase, String.toList_ofList, length_lowerFrom]

theorem lowercase_dotted : lowercase "İ" = "i̇" := by decide +kernel

/-- Of the words of at most one character only the dotted capital I is longer in lower case. -/
theorem eq_dotted_of_length_lt {word : String} (hshort : word.toList.length ≤ 1)
    (hlt : word.toList.length < (lowercase word).toList.length) : word = "İ" := by
  rw [length_lowercase] at hlt
  have hpos : 0 < word.toList.countP (·.toNat = dottedCapitalI) := by omega
  obtain ⟨c, hc, hpoint⟩ := List.countP_pos_iff.1 hpos
  have hword : word.toList = [c] := by
    obtain ⟨c', hc'⟩ := List.length_eq_one_iff.1
      (Nat.le_antisymm hshort (List.length_pos_of_mem hc))
    rw [hc'] at hc ⊢
    rw [List.mem_singleton.1 hc]
  have hdotted : c = 'İ' := Char.toNat_inj.1 (of_decide_eq_true hpoint)
  exact String.toList_inj.1 (hword.trans (hdotted ▸ rfl))

/-! ### A sigma at the end -/

/-- Whether the last letter of a word is a capital sigma with a letter before it.  At the end of a
text it has the final form in lower case. -/
def endsInSigma (word : List Char) : Bool :=
  match word.reverse.dropWhile (fun c => caseIgnorablePoints.holds c.toNat) with
  | [] => false
  | c :: before => c = 'Σ' && reachesCased before

theorem endsInSigma_append_of_ignorable {c : Char} (h : caseIgnorablePoints.holds c.toNat = true)
    (word : List Char) : endsInSigma (word ++ [c]) = endsInSigma word := by
  simp [endsInSigma, h]

theorem endsInSigma_append_of_not_ignorable {c : Char}
    (h : caseIgnorablePoints.holds c.toNat = false) (word : List Char) :
    endsInSigma (word ++ [c]) = (c = 'Σ' && reachesCased word.reverse) := by
  simp [endsInSigma, h]

theorem lowerSigma_nil_eq_iff (before after : List Char) :
    lowerSigma before [] = lowerSigma before after ↔
      ¬(reachesCased before = true ∧ reachesCased after = true) := by
  have nothing : reachesCased [] = false := rfl
  rw [lowerSigma, lowerSigma, nothing]
  cases reachesCased before <;> cases reachesCased after <;> decide

/-- What follows a word changes its lower case only if the word ends in a sigma and what follows
is a letter. -/
theorem lowerIn_nil_eq_iff (word after : List Char) :
    lowerIn [] word [] = lowerIn [] word after ↔
      ¬(endsInSigma word = true ∧ reachesCased after = true) := by
  -- from the end of the word, since all that matters is its last letter
  induction word using List.reverseRecOn with
  | nil => simp [lowerIn, endsInSigma]
  | append_singleton word c ih =>
    have split_last : lowerIn [] (word ++ [c]) [] = lowerIn [] (word ++ [c]) after ↔
        lowerIn [] word [c] = lowerIn [] word (c :: after) ∧
          lowerIn word.reverse [c] [] = lowerIn word.reverse [c] after := by
      rw [lowerIn_append, lowerIn_append, List.append_nil, List.append_nil, List.singleton_append]
      constructor
      · intro heq
        exact List.append_inj heq (length_lowerIn _ _ _ _)
      · rintro ⟨hword, hlast⟩
        rw [hword, hlast]
    cases hc : caseIgnorablePoints.holds c.toNat with
    | true =>
      have hne : c ≠ 'Σ' := by
        rintro rfl
        rw [sigma_not_ignorable] at hc
        cases hc
      have hlast : lowerIn word.reverse [c] [] = lowerIn word.reverse [c] after := by
        simp [lowerIn, hne]
      rw [split_last, and_iff_left hlast, endsInSigma_append_of_ignorable hc, ← ih,
        lowerIn_congr (reachesCased_cons_of_ignorable hc []),
        lowerIn_congr (reachesCased_cons_of_ignorable hc after)]
    | false =>
      have hword : lowerIn [] word [c] = lowerIn [] word (c :: after) := by
        refine lowerIn_congr ?_ [] word
        rw [reachesCased_cons_of_not_ignorable hc, reachesCased_cons_of_not_ignorable hc]
      rw [split_last, and_iff_right hword, endsInSigma_append_of_not_ignorable hc]
      by_cases hsigma : c = 'Σ'
      · simp [lowerIn, hsigma, lowerSigma_nil_eq_iff]
      · simp [lowerIn, hsigma]

/-- The lower case of a text begins with that of its beginning, unless the beginning ends in a
sigma and a letter follows it. -/
theorem lowerFrom_prefix_iff (word after : List Char) :
    lowerFrom [] word <+: lowerFrom [] (word ++ after) ↔
      ¬(endsInSigma word = true ∧ reachesCased after = true) := by
  rw [← lowerIn_nil_eq_iff, lowerFrom_append, ← lowerIn_nil_right]
  constructor
  · rintro ⟨rest, hrest⟩
    exact (List.append_inj hrest (length_lowerIn _ _ _ _)).1
  · intro heq
    rw [← heq]
    exact List.prefix_append _ _

end ResumableQuery.Text
