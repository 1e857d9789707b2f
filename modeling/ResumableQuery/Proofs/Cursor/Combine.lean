import ResumableQuery.Cursor.Merge
import ResumableQuery.Proofs.Cursor.Reading

/-!
# Prospects combined

What a merge hands out when nothing limits it, as a function of what its legs hand out (`combine`):
step by step, the keys of the rows that come next decide which row is handed out and which rows are
passed over, and the first failure ends it all.  The decision is the one that the merge itself takes
when no leg has stopped for a limit (`verdict_eq_choice`).
-/

namespace ResumableQuery

namespace Prospect

variable (key : α → Except CursorError Tuple) (p : Tuple → Bool)

/-- Whether there is a failure in place of the next row or of its key. -/
def fails : Prospect α → Bool
  | row v _ => (key v).toOption.isNone
  | exhausted => false
  | failure => true

/-- The key of the next row. -/
def key? : Prospect α → Option Tuple
  | row v _ => (key v).toOption
  | _ => none

/-- The next row, if its key satisfies a predicate. -/
def valueIf : Prospect α → Option α
  | row v _ => if (key v).toOption.any p then some v else none
  | _ => none

/-- What remains after the next row, if its key satisfies a predicate. -/
def useIf : Prospect α → Prospect α
  | row v rest => if (key v).toOption.any p then rest else row v rest
  | q => q

/-- What remains of several prospects, each taken for itself. -/
def useEach (qs : List (Prospect α)) : List (Prospect α) := qs.map (useIf key p)

theorem useEach_cons (q : Prospect α) (qs : List (Prospect α)) :
    useEach key p (q :: qs) = q.useIf key p :: useEach key p qs := rfl

theorem size_useIf_le (q : Prospect α) : (q.useIf key p).size ≤ q.size := by
  cases q with
  | row v rest =>
    rw [useIf]
    split
    · exact Nat.le_succ _
    · exact Nat.le_refl _
  | exhausted | failure => exact Nat.le_refl _

theorem size_useIf_lt {q : Prospect α} {v : α} (h : q.valueIf key p = some v) :
    (q.useIf key p).size < q.size := by
  cases q with
  | row u rest =>
    rw [valueIf] at h
    split at h
    · rename_i hu
      rw [useIf, if_pos hu]
      exact Nat.lt_succ_self _
    · cases h
  | exhausted | failure => cases h

theorem sum_size_useIf_le (qs : List (Prospect α)) :
    ((useEach key p qs).map size).sum ≤ (qs.map size).sum := by
  induction qs with
  | nil => exact Nat.le_refl _
  | cons q qs ih => exact Nat.add_le_add (size_useIf_le key p q) ih

theorem sum_size_useIf_lt {qs : List (Prospect α)} {v : α}
    (h : qs.findSome? (valueIf key p) = some v) :
    ((useEach key p qs).map size).sum < (qs.map size).sum := by
  induction qs with
  | nil => cases h
  | cons q qs ih =>
    have hle := size_useIf_le key p q
    have hles := sum_size_useIf_le key p qs
    simp only [useEach_cons, List.map_cons, List.sum_cons] at hles ⊢
    rw [List.findSome?_cons] at h
    cases hq : q.valueIf key p with
    | some u =>
      have := size_useIf_lt key p hq
      omega
    | none =>
      rw [hq] at h
      have := ih h
      omega

end Prospect

/-- The leg has a row, or it has ended. -/
def Cursor.Leg.IsSettled (l : Cursor.Leg α) : Prop := l.source? = none ∧ l.error? = none

namespace Cursor.Merge

/-- Of some keys, the first that no other one precedes. -/
def leadingKey (precedes : Tuple → Tuple → Bool) (keys : List (Option Tuple)) : Option Tuple :=
  (keys.filterMap id).foldl (fun best k => if best.all (precedes k) then some k else best) none

/-- What the keys of the next rows call for; legs without a key have ended. -/
def choice (m : Merge α) (keys : List (Option Tuple)) : Verdict :=
  match m.operation with
  | .union =>
    match leadingKey m.precedes keys with
    | none => .stop .sourceExhausted
    | some key => .take key
  | .intersection =>
    if keys.any (·.isNone) then .stop .sourceExhausted
    else
      match leadingKey (fun a b => m.precedes b a) keys with
      | none => .stop .sourceExhausted
      | some key => if keys.all (· = some key) then .take key else .pass key

set_option linter.unusedVariables false in
/-- What the merge hands out, given what its legs hand out. -/
def combine (m : Merge α) (qs : List (Prospect α)) : Prospect α :=
  if qs.any (·.fails m.key) then .failure
  else
    match m.choice (qs.map (·.key? m.key)) with
    | .stop _ => .exhausted
    | .take k =>
      match taken : qs.findSome? (·.valueIf m.key (· = k)) with
      | some v => .row v (m.combine (Prospect.useEach m.key (· = k) qs))
      | none => .exhausted
    | .pass k =>
      match passed : qs.findSome? (·.valueIf m.key (· ≠ k)) with
      | some _ => m.combine (Prospect.useEach m.key (· ≠ k) qs)
      | none => .exhausted
termination_by (qs.map Prospect.size).sum
decreasing_by
  · exact Prospect.sum_size_useIf_lt _ _ taken
  · exact Prospect.sum_size_useIf_lt _ _ passed

variable (m : Merge α)

/-! ### Leading keys -/

theorem mem_of_foldl_eq_some (precedes : Tuple → Tuple → Bool) (ks : List Tuple)
    (best : Option Tuple) {k : Tuple}
    (h : ks.foldl (fun best k => if best.all (precedes k) then some k else best) best = some k) :
    best = some k ∨ k ∈ ks := by
  induction ks generalizing best with
  | nil => exact .inl h
  | cons a ks ih =>
    rw [List.foldl_cons] at h
    rcases ih _ h with hb | hk
    · split at hb
      · cases hb
        exact .inr List.mem_cons_self
      · exact .inl hb
    · exact .inr (List.mem_cons_of_mem _ hk)

theorem mem_of_leadingKey {precedes : Tuple → Tuple → Bool} {keys : List (Option Tuple)} {k : Tuple}
    (h : leadingKey precedes keys = some k) : some k ∈ keys := by
  rcases mem_of_foldl_eq_some precedes _ _ h with h | h
  · cases h
  · obtain ⟨o, ho, hk⟩ := List.mem_filterMap.1 h
    exact (show o = some k from hk) ▸ ho

theorem mem_of_choice_take {keys : List (Option Tuple)} {k : Tuple}
    (h : m.choice keys = .take k) : some k ∈ keys := by
  unfold choice at h
  split at h
  · split at h
    · cases h
    · cases h
      exact mem_of_leadingKey (by assumption)
  · split at h
    · cases h
    · split at h
      · cases h
      · split at h
        · cases h
          exact mem_of_leadingKey (by assumption)
        · cases h

theorem exists_of_choice_pass {keys : List (Option Tuple)} {k : Tuple}
    (h : m.choice keys = .pass k) : ∃ k', some k' ∈ keys ∧ k' ≠ k := by
  unfold choice at h
  split at h
  · split at h <;> cases h
  · split at h
    · cases h
    · rename_i hsome
      split at h
      · cases h
      · split at h
        · cases h
        · rename_i hall
          cases h
          -- some key is not the leading one, and no leg is without a key
          rw [List.all_eq_true] at hall
          push Not at hall
          obtain ⟨o, ho, hne⟩ := hall
          cases o with
          | none => exact absurd (List.any_eq_true.2 ⟨none, ho, rfl⟩) hsome
          | some k' => exact ⟨k', ho, fun hk => hne (decide_eq_true (hk ▸ rfl))⟩

theorem choice_of_all_none {keys : List (Option Tuple)} (h : ∀ o ∈ keys, o = none) :
    m.choice keys = .stop .sourceExhausted := by
  have hnone : ∀ precedes, leadingKey precedes keys = none := by
    intro precedes
    cases hk : leadingKey precedes keys with
    | none => rfl
    | some k => exact nomatch h _ (mem_of_leadingKey hk)
  unfold choice
  split
  · rw [hnone]
  · rw [hnone, ite_self]

theorem choice_of_none_mem {keys : List (Option Tuple)} (hop : m.operation = .intersection)
    (h : none ∈ keys) : m.choice keys = .stop .sourceExhausted := by
  unfold choice
  rw [hop, if_pos (List.any_eq_true.2 ⟨none, h, rfl⟩)]

/-! ### Steps of combining -/

variable {m} {qs : List (Prospect α)}

theorem combine_of_fails {q : Prospect α} (h : q ∈ qs) (hq : q.fails m.key = true) :
    m.combine qs = .failure := by
  rw [combine, if_pos (List.any_eq_true.2 ⟨q, h, hq⟩)]

theorem combine_of_stop (h : qs.any (·.fails m.key) = false) {r : StopReason}
    (hc : m.choice (qs.map (·.key? m.key)) = .stop r) : m.combine qs = .exhausted := by
  rw [combine, h, hc]
  rfl

theorem combine_of_take (h : qs.any (·.fails m.key) = false) {k : Tuple} {v : α}
    (hc : m.choice (qs.map (·.key? m.key)) = .take k)
    (hv : qs.findSome? (·.valueIf m.key (· = k)) = some v) :
    m.combine qs = .row v (m.combine (Prospect.useEach m.key (· = k) qs)) := by
  rw [combine, h, hc]
  simp only [Bool.false_eq_true, if_false]
  split
  · rename_i hv'
    rw [hv] at hv'
    cases hv'
    rfl
  · rename_i hv'
    rw [hv] at hv'
    cases hv'

theorem combine_of_pass (h : qs.any (·.fails m.key) = false) {k : Tuple} {v : α}
    (hc : m.choice (qs.map (·.key? m.key)) = .pass k)
    (hv : qs.findSome? (·.valueIf m.key (· ≠ k)) = some v) :
    m.combine qs = m.combine (Prospect.useEach m.key (· ≠ k) qs) := by
  rw [combine, h, hc]
  simp only [Bool.false_eq_true, if_false]
  split
  · rfl
  · rename_i hv'
    rw [hv] at hv'
    cases hv'

theorem combine_of_all_exhausted (h : ∀ q ∈ qs, q = .exhausted) : m.combine qs = .exhausted := by
  refine combine_of_stop (r := .sourceExhausted) ?_ (choice_of_all_none m fun o ho => ?_)
  · refine List.any_eq_false.2 fun q hq => ?_
    rw [h q hq, Prospect.fails]
    exact Bool.false_ne_true
  · obtain ⟨q, hq, rfl⟩ := List.mem_map.1 ho
    rw [h q hq]
    rfl

/-- An intersection is over as soon as one leg has no more rows, unless it has failed before. -/
theorem combine_of_exhausted_mem (hop : m.operation = .intersection) (h : .exhausted ∈ qs) :
    m.combine qs = .failure ∨ m.combine qs = .exhausted := by
  cases hf : qs.any (·.fails m.key) with
  | true =>
    obtain ⟨q, hq, hfq⟩ := List.any_eq_true.1 hf
    exact .inl (combine_of_fails hq hfq)
  | false =>
    exact .inr (combine_of_stop hf (m.choice_of_none_mem hop (List.mem_map.2 ⟨_, h, rfl⟩)))

/-- Under limits a leg may give up a prospect that begins with a failure. -/
theorem combine_set {limited : Bool} {i : Nat} {q q' : Prospect α} (hi : qs[i]? = some q)
    (hy : q.Yields limited q') : (m.combine qs).Yields limited (m.combine (qs.set i q')) := by
  rcases hy with rfl | ⟨under, rfl⟩
  · obtain ⟨hlt, rfl⟩ := List.getElem?_eq_some_iff.1 hi
    rw [List.set_getElem_self]
    exact .refl _
  · exact .inr ⟨under, combine_of_fails (List.mem_of_getElem? hi) rfl⟩

/-! ### The verdict on legs without limits -/

theorem isExhausted_eq_isNone_key {l : Leg α} (h : l.IsSettled) (hl : l.limit? = none) :
    l.isExhausted = l.key?.isNone := by
  cases l with
  | unread | waiting => cases h.1
  | failed => cases h.2
  | front => rfl
  | ended r t => cases r with
    | sourceExhausted => rfl
    | returnLimit | timeLimit | scanLimit => cases hl

/-- Where no leg has stopped for a limit, the keys decide. -/
theorem verdict_eq_choice {legs : Legs α} (h : ∀ l ∈ legs, l.IsSettled) (hl : legs.limit? = none) :
    m.verdict legs = m.choice (legs.map Leg.key?) := by
  have leading : ∀ precedes, legs.leading precedes = leadingKey precedes (legs.map Leg.key?) := by
    intro precedes
    rw [leadingKey, List.filterMap_map]
    rfl
  have limits : ∀ l ∈ legs, l.limit? = none := List.findSome?_eq_none_iff.1 hl
  have ended : legs.any Leg.isExhausted = (legs.map Leg.key?).any (·.isNone) := by
    rw [List.any_map, Bool.eq_iff_iff, List.any_eq_true, List.any_eq_true]
    refine exists_congr fun l => and_congr_right fun hmem => ?_
    rw [isExhausted_eq_isNone_key (h l hmem) (limits l hmem)]
    rfl
  have all : ∀ k, legs.all (·.key? = some k) = (legs.map Leg.key?).all (· = some k) := by
    intro k
    rw [List.all_map]
    rfl
  unfold verdict choice
  cases m.operation with
  | union =>
    simp only [hl, leading]
    cases leadingKey m.precedes (legs.map Leg.key?) <;> rfl
  | intersection =>
    simp only [hl, leading, ended, all]
    cases leadingKey (fun a b => m.precedes b a) (legs.map Leg.key?) <;> rfl

end Cursor.Merge

end ResumableQuery
