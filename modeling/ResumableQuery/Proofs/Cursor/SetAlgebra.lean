import ResumableQuery.Proofs.Cursor.Columns
import ResumableQuery.Proofs.Cursor.Combine
import ResumableQuery.Proofs.Tuple.PackedOrder

/-!
# Merges of ordered rows

A merge of legs whose rows are in the order of its keys hands out rows in that order, and of every
key as many as the operation says: a union as many as the leg that has most of them, an intersection
as many as the leg that has fewest (`exists_combine_eq`).  To say which rows these are, the rows of
one key are taken from each leg and laid side by side (`SetOperation.columns`).  Handing out a key
takes the first row off all lists of that key, and passing over rows shortens only lists of keys
that some leg does not have any more.  Where no leg has two rows of a key, what comes are the rows
that some leg has or that all have (`exists_combine_eq_of_strict`).
-/

namespace ResumableQuery.Cursor.Merge

variable (m : Merge α)

/-! ### The order of a merge -/

theorem precedes_irrefl (a : Tuple) : m.precedes a a = false := by
  unfold precedes
  rw [Std.compare_self, ite_self]
  rfl

theorem precedes_trans {a b c : Tuple} (h : m.precedes a b = true) (k : m.precedes b c = true) :
    m.precedes a c = true := by
  unfold precedes at *
  split at h
  · rw [if_pos (by assumption), Ordering.isLT_iff_eq_lt] at *
    exact Std.TransCmp.lt_trans k h
  · rw [if_neg (by assumption), Ordering.isLT_iff_eq_lt] at *
    exact Std.TransCmp.lt_trans h k

theorem precedes_of_ne {a b : Tuple} (hne : a ≠ b) (h : m.precedes a b = false) :
    m.precedes b a = true := by
  unfold precedes at *
  have hlt {x y : Tuple} (hxy : x ≠ y) (h : (compare x y).isLT = false) :
      (compare y x).isLT = true := by
    cases hc : compare x y with
    | lt =>
      rw [hc] at h
      cases h
    | eq => exact absurd (Tuple.eq_of_compare_eq hc) hxy
    | gt => rw [Std.OrientedCmp.gt_iff_lt.1 hc, Ordering.isLT_iff_eq_lt]
  split at h
  · rw [if_pos (by assumption)]
    exact hlt hne.symm h
  · rw [if_neg (by assumption)]
    exact hlt hne h

theorem not_precedes_trans {a b c : Tuple} (h : m.precedes b a = false)
    (k : m.precedes c b = false) : m.precedes c a = false := by
  refine Bool.eq_false_iff.2 fun hca => ?_
  by_cases hcb : c = b
  · rw [hcb, h] at hca
    cases hca
  · rw [m.precedes_trans (m.precedes_of_ne hcb k) hca] at h
    cases h

/-! ### Choices -/

section LeadingKey

variable {precedes : Tuple → Tuple → Bool} (irrefl : ∀ a, precedes a a = false)
  (trans : ∀ a b c, precedes a b = true → precedes b c = true → precedes a c = true)
  (negTrans : ∀ a b c, precedes a b = false → precedes b c = false → precedes a c = false)

include irrefl trans negTrans

theorem not_precedes_foldl (ks : List Tuple) {best : Option Tuple} {k : Tuple}
    (h : ks.foldl (fun best k => if best.all (precedes k) then some k else best) best = some k) :
    (∀ b, best = some b → precedes b k = false) ∧ ∀ k' ∈ ks, precedes k' k = false := by
  induction ks generalizing best with
  | nil =>
    refine ⟨fun b hb => ?_, nofun⟩
    rw [hb] at h
    cases h
    exact irrefl _
  | cons a ks ih =>
    rw [List.foldl_cons] at h
    obtain ⟨hbest, hks⟩ := ih h
    split at hbest
    · rename_i hall
      have ha := hbest a rfl
      refine ⟨fun b hb => Bool.eq_false_iff.2 fun hbk => ?_, List.forall_mem_cons.2 ⟨ha, hks⟩⟩
      rw [hb, Option.all_some] at hall
      rw [trans a b k hall hbk] at ha
      cases ha
    · rename_i hall
      cases best with
      | none => exact absurd rfl hall
      | some b =>
        have hab : precedes a b = false := Bool.eq_false_iff.2 hall
        exact ⟨hbest, List.forall_mem_cons.2 ⟨negTrans a b k hab (hbest b rfl), hks⟩⟩

theorem not_precedes_leadingKey {keys : List (Option Tuple)} {k k' : Tuple}
    (h : leadingKey precedes keys = some k) (hk' : some k' ∈ keys) : precedes k' k = false :=
  (not_precedes_foldl irrefl trans negTrans _ h).2 k' (List.mem_filterMap.2 ⟨some k', hk', rfl⟩)

end LeadingKey

theorem foldl_ne_none (precedes : Tuple → Tuple → Bool) (ks : List Tuple) {best : Option Tuple}
    (h : best ≠ none) :
    ks.foldl (fun best k => if best.all (precedes k) then some k else best) best ≠ none := by
  induction ks generalizing best with
  | nil => exact h
  | cons a ks ih =>
    rw [List.foldl_cons]
    split
    · exact ih (Option.some_ne_none a)
    · exact ih h

theorem eq_none_of_leadingKey {precedes : Tuple → Tuple → Bool} {keys : List (Option Tuple)}
    (h : leadingKey precedes keys = none) : ∀ o ∈ keys, o = none := by
  intro o ho
  cases o with
  | none => rfl
  | some k =>
    have hk : k ∈ keys.filterMap id := List.mem_filterMap.2 ⟨some k, ho, rfl⟩
    rw [leadingKey] at h
    cases hks : keys.filterMap id with
    | nil =>
      rw [hks] at hk
      cases hk
    | cons a ks =>
      rw [hks] at h
      exact absurd h (foldl_ne_none precedes ks (Option.some_ne_none a))

variable {m} {keys : List (Option Tuple)} {k : Tuple}

/-- A merge stops when no leg has a row, and an intersection when some leg has none. -/
theorem of_choice_stop {r : StopReason} (h : m.choice keys = .stop r) :
    (∀ o ∈ keys, o = none) ∨ m.operation = .intersection ∧ none ∈ keys := by
  unfold choice at h
  split at h
  · split at h
    · exact .inl (eq_none_of_leadingKey (by assumption))
    · cases h
  · split at h
    · rename_i hop hnone
      obtain ⟨o, ho, hisNone⟩ := List.any_eq_true.1 hnone
      exact .inr ⟨hop, Option.isNone_iff_eq_none.1 hisNone ▸ ho⟩
    · split at h
      · exact .inl (eq_none_of_leadingKey (by assumption))
      · split at h <;> cases h

/-- The key that a merge takes comes first, and in an intersection all legs have it. -/
theorem of_choice_take (h : m.choice keys = .take k) :
    (∀ k', some k' ∈ keys → m.precedes k' k = false) ∧
      (m.operation = .intersection → ∀ o ∈ keys, o = some k) := by
  unfold choice at h
  split at h
  · rename_i hop
    split at h
    · cases h
    · rename_i hk
      cases h
      exact ⟨fun k' hk' => not_precedes_leadingKey m.precedes_irrefl
        (fun _ _ _ => m.precedes_trans) (fun _ _ _ h h' => m.not_precedes_trans h' h) hk hk',
        fun hop' => by rw [hop] at hop'; cases hop'⟩
  · split at h
    · cases h
    · split at h
      · cases h
      · split at h
        · rename_i hall
          cases h
          have heq : ∀ o ∈ keys, o = some k := fun o ho =>
            of_decide_eq_true (List.all_eq_true.1 hall o ho)
          refine ⟨fun k' hk' => ?_, fun _ => heq⟩
          rw [Option.some.inj (heq _ hk')]
          exact m.precedes_irrefl _
        · cases h

/-- The key up to which an intersection passes over rows comes last. -/
theorem of_choice_pass (h : m.choice keys = .pass k) : m.operation = .intersection ∧
    some k ∈ keys ∧ ∀ k', some k' ∈ keys → m.precedes k k' = false := by
  unfold choice at h
  split at h
  · split at h <;> cases h
  · rename_i hop
    split at h
    · cases h
    · split at h
      · cases h
      · rename_i hk
        split at h
        · cases h
        · cases h
          exact ⟨hop, mem_of_leadingKey hk, fun k' hk' =>
            @not_precedes_leadingKey (fun a b => m.precedes b a) m.precedes_irrefl
              (fun _ _ _ h h' => m.precedes_trans h' h)
              (fun _ _ _ h h' => m.not_precedes_trans h h') _ _ _ hk hk'⟩

/-! ### Rows in order -/

section Rows

variable (m) (f : α → Tuple)

/-- The keys of the rows do not go back in the direction of the merge. -/
def InOrder (l : List α) : Prop := l.Pairwise fun a b => m.precedes (f b) (f a) = false

/-- What is left of rows after the first one, if its key satisfies a predicate. -/
def advance (p : Tuple → Bool) : List α → List α
  | [] => []
  | a :: rest => if p (f a) then rest else a :: rest

variable {m f} {l : List α} {p : Tuple → Bool} {t : Tuple}

theorem advance_sublist (p : Tuple → Bool) (l : List α) : (advance f p l).Sublist l := by
  cases l with
  | nil => exact .slnil
  | cons a rest =>
    rw [advance]
    split
    · exact List.sublist_cons_self a rest
    · exact .refl _

theorem mem_advance {ls : List (List α)} {p : Tuple → Bool} {l' : List α}
    (h : l' ∈ ls.map (advance f p)) : ∃ l ∈ ls, l'.Sublist l := by
  obtain ⟨l, hl, rfl⟩ := List.mem_map.1 h
  exact ⟨l, hl, advance_sublist p l⟩

theorem not_precedes_of_mem (h : InOrder m f l)
    (hfront : ∀ a, l.head? = some a → m.precedes (f a) k = false) {b : α} (hb : b ∈ l) :
    m.precedes (f b) k = false := by
  cases l with
  | nil => cases hb
  | cons a rest =>
    rcases List.mem_cons.1 hb with rfl | hb
    · exact hfront b rfl
    · exact m.not_precedes_trans (hfront a rfl) ((List.pairwise_cons.1 h).1 b hb)

theorem filter_advance (h : ∀ a, l.head? = some a → p (f a) = true → f a ≠ t) :
    (advance f p l).filter (f · = t) = l.filter (f · = t) := by
  cases l with
  | nil => rfl
  | cons a rest =>
    rw [advance]
    split
    · rename_i hp
      rw [List.filter_cons, if_neg (by simpa using h a rfl hp)]
    · rfl

/-- Rows whose first key does not come before `k` have rows of `k` only if they begin with one. -/
theorem filter_eq_of_front (h : InOrder m f l)
    (hfront : ∀ a, l.head? = some a → m.precedes (f a) k = false) :
    (l.filter (f · = k)).head? = l.head?.filter (f · = k) ∧
      (l.filter (f · = k)).tail = (advance f (· = k) l).filter (f · = k) := by
  cases l with
  | nil => exact ⟨rfl, rfl⟩
  | cons a rest =>
    by_cases ha : f a = k
    · simp [advance, Option.filter, ha]
    · have hnone : ∀ b ∈ a :: rest, ¬ f b = k := by
        intro b hb hbk
        rcases List.mem_cons.1 hb with rfl | hb
        · exact ha hbk
        · have hlt := m.precedes_of_ne ha (hfront a rfl)
          rw [← hbk, (List.pairwise_cons.1 h).1 b hb] at hlt
          cases hlt
      have hnil : (a :: rest).filter (f · = k) = [] :=
        List.filter_eq_nil_iff.2 fun b hb => by simpa using hnone b hb
      have hkeep : advance f (· = k) (a :: rest) = a :: rest := by simp [advance, ha]
      rw [hkeep, hnil]
      simp [Option.filter, ha]

/-! ### Prospects of rows in order -/

/-- The keys of the rows are those that a function gives. -/
def Keyed (m : Merge α) (f : α → Tuple) (l : List α) : Prop := ∀ a ∈ l, m.key a = .ok (f a)

theorem fails_ofList (h : Keyed m f l) : (Prospect.ofList l).fails m.key = false := by
  cases l with
  | nil => rfl
  | cons a rest =>
    rw [Prospect.ofList, Prospect.fails, h a List.mem_cons_self]
    rfl

theorem key?_ofList (h : Keyed m f l) :
    (Prospect.ofList l).key? m.key = l.head?.map f := by
  cases l with
  | nil => rfl
  | cons a rest =>
    rw [Prospect.ofList, Prospect.key?, h a List.mem_cons_self]
    rfl

theorem valueIf_ofList (h : Keyed m f l) :
    (Prospect.ofList l).valueIf m.key p = l.head?.filter (p ∘ f) := by
  cases l with
  | nil => rfl
  | cons a rest =>
    rw [Prospect.ofList, Prospect.valueIf, h a List.mem_cons_self]
    rfl

theorem useIf_ofList (h : Keyed m f l) :
    (Prospect.ofList l).useIf m.key p = .ofList (advance f p l) := by
  cases l with
  | nil => rfl
  | cons a rest =>
    rw [Prospect.ofList, Prospect.useIf, h a List.mem_cons_self, advance]
    show (if p (f a) = true then _ else _) = _
    split <;> rfl

variable {ls : List (List α)}

section Prospects

variable (hkeyed : ∀ l ∈ ls, Keyed m f l)

include hkeyed

theorem any_fails_ofList : (ls.map Prospect.ofList).any (·.fails m.key) = false := by
  rw [List.any_map, List.any_eq_false]
  intro l hl
  rw [Function.comp_apply, fails_ofList (hkeyed l hl)]
  exact Bool.false_ne_true

theorem keys_ofList :
    (ls.map Prospect.ofList).map (·.key? m.key) = ls.map fun l => l.head?.map f := by
  rw [List.map_map]
  exact List.map_congr_left fun l hl => key?_ofList (hkeyed l hl)

theorem useEach_ofList : Prospect.useEach m.key p (ls.map Prospect.ofList) =
    (ls.map (advance f p)).map Prospect.ofList := by
  rw [Prospect.useEach, List.map_map, List.map_map]
  exact List.map_congr_left fun l hl => useIf_ofList (hkeyed l hl)

theorem findSome?_ofList : (ls.map Prospect.ofList).findSome? (·.valueIf m.key p) =
    ls.findSome? fun l => l.head?.filter (p ∘ f) := by
  rw [List.findSome?_map]
  exact findSome?_congr fun l hl => valueIf_ofList (hkeyed l hl)

theorem exists_findSome? {k' : Tuple} (hk : some k' ∈ ls.map fun l => l.head?.map f)
    (hp : p k' = true) : ∃ v, (ls.map Prospect.ofList).findSome? (·.valueIf m.key p) = some v ∧
      (ls.findSome? fun l => l.head?.filter (p ∘ f)) = some v ∧ p (f v) = true := by
  rw [findSome?_ofList hkeyed]
  cases hv : ls.findSome? fun l => l.head?.filter (p ∘ f) with
  | some v =>
    obtain ⟨l, -, hl⟩ := List.exists_of_findSome?_eq_some hv
    exact ⟨v, rfl, rfl, (Option.filter_eq_some_iff.1 hl).2⟩
  | none =>
    obtain ⟨l, hl, hlk⟩ := List.mem_map.1 hk
    obtain ⟨a, ha, rfl⟩ := Option.map_eq_some_iff.1 hlk
    have hnone := List.findSome?_eq_none_iff.1 hv l hl
    rw [ha, Option.filter_some, Function.comp_apply, if_pos hp] at hnone
    cases hnone

end Prospects

/-! ### Columns at each step -/

theorem columns_of_stop {r : StopReason}
    (hc : m.choice (ls.map fun l => l.head?.map f) = .stop r) (t : Tuple) :
    m.operation.columns (ls.map fun l => l.filter (f · = t)) = [] := by
  have hnil {l : List α} (h : l.head?.map f = none) : l = [] := by
    rwa [Option.map_eq_none_iff, List.head?_eq_none_iff] at h
  rcases of_choice_stop hc with hall | ⟨hop, hmem⟩
  · refine List.eq_nil_iff_forall_not_mem.2 fun a ha => ?_
    obtain ⟨l', hl', ha⟩ := mem_columns _ ha
    obtain ⟨l, hl, rfl⟩ := List.mem_map.1 hl'
    rw [hnil (hall _ (List.mem_map.2 ⟨l, hl, rfl⟩))] at ha
    cases ha
  · obtain ⟨l, hl, hnone⟩ := List.mem_map.1 hmem
    rw [hop]
    exact shared_eq_nil_of_mem (List.mem_map.2 ⟨l, hl, by rw [hnil hnone]; rfl⟩)

variable (hord : ∀ l ∈ ls, InOrder m f l)

include hord

theorem columns_of_take (hc : m.choice (ls.map fun l => l.head?.map f) = .take k) {v : α}
    (hv : (ls.findSome? fun l => l.head?.filter ((· = k) ∘ f)) = some v) :
    m.operation.columns (ls.map fun l => l.filter (f · = k)) =
      v :: m.operation.columns
        ((ls.map (advance f (· = k))).map fun l => l.filter (f · = k)) := by
  obtain ⟨hfirst, hall⟩ := of_choice_take hc
  have hfront : ∀ l ∈ ls, ∀ a, l.head? = some a → m.precedes (f a) k = false := fun l hl a ha =>
    hfirst _ (List.mem_map.2 ⟨l, hl, by rw [ha]; rfl⟩)
  have htail : ((ls.map (advance f (· = k))).map fun l => l.filter (f · = k)) =
      (ls.map fun l => l.filter (f · = k)).map List.tail := by
    rw [List.map_map, List.map_map]
    exact List.map_congr_left fun l hl =>
      (filter_eq_of_front (hord l hl) (hfront l hl)).2.symm
  have hhead : (m.operation.columns (ls.map fun l => l.filter (f · = k))).head? = some v := by
    rw [head?_columns, List.findSome?_map, ← hv]
    · exact findSome?_congr fun l hl => (filter_eq_of_front (hord l hl) (hfront l hl)).1
    · intro hop hmem
      obtain ⟨l, hl, hnil⟩ := List.mem_map.1 hmem
      obtain ⟨a, ha, hak⟩ :=
        Option.map_eq_some_iff.1 (hall hop _ (List.mem_map.2 ⟨l, hl, rfl⟩))
      have hmem : a ∈ l.filter (f · = k) :=
        List.mem_filter.2 ⟨List.mem_of_mem_head? ha, decide_eq_true hak⟩
      rw [hnil] at hmem
      cases hmem
  rw [htail, columns_map_tail]
  exact (List.cons_head?_tail hhead).symm

omit hord in
/-- Rows of other keys than those that are used stay where they are. -/
theorem columns_advance (hp : ∀ l ∈ ls, ∀ a, l.head? = some a → p (f a) = true → f a ≠ t) :
    m.operation.columns ((ls.map (advance f p)).map fun l => l.filter (f · = t)) =
      m.operation.columns (ls.map fun l => l.filter (f · = t)) := by
  rw [List.map_map]
  exact congrArg _ (List.map_congr_left fun l hl => filter_advance (hp l hl))

theorem columns_of_pass (hc : m.choice (ls.map fun l => l.head?.map f) = .pass k) (t : Tuple) :
    m.operation.columns ((ls.map (advance f (· ≠ k))).map fun l => l.filter (f · = t)) =
      m.operation.columns (ls.map fun l => l.filter (f · = t)) := by
  obtain ⟨hop, hmem, hlast⟩ := of_choice_pass hc
  by_cases htk : m.precedes t k = true
  · -- the leg that has come to the last key has no row of an earlier one
    obtain ⟨l, hl, hlk⟩ := List.mem_map.1 hmem
    obtain ⟨a, ha, hak⟩ := Option.map_eq_some_iff.1 hlk
    have hnone : l.filter (f · = t) = [] := by
      refine List.filter_eq_nil_iff.2 fun b hb hbt => ?_
      have hbt : f b = t := of_decide_eq_true hbt
      cases l with
      | nil => cases hb
      | cons c rest =>
        cases ha
        have hback : m.precedes (f b) (f a) = false := by
          rcases List.mem_cons.1 hb with rfl | hb
          · exact m.precedes_irrefl _
          · exact (List.pairwise_cons.1 (hord _ hl)).1 b hb
        rw [hbt, hak, htk] at hback
        cases hback
    have hkeep : (advance f (· ≠ k) l).filter (f · = t) = [] :=
      List.filter_eq_nil_iff.2 fun b hb =>
        List.filter_eq_nil_iff.1 hnone b ((advance_sublist _ l).subset hb)
    rw [hop]
    show shared _ = shared _
    rw [shared_eq_nil_of_mem (List.mem_map.2 ⟨l, hl, hnone⟩), shared_eq_nil_of_mem
      (List.mem_map.2 ⟨_, List.mem_map.2 ⟨l, hl, rfl⟩, hkeep⟩)]
  · refine columns_advance fun l hl a ha hne hat => htk ?_
    rw [← hat]
    exact m.precedes_of_ne (Ne.symm (of_decide_eq_true hne))
      (hlast _ (List.mem_map.2 ⟨l, hl, by rw [ha]; rfl⟩))

/-- What is left after a key was taken does not come before it. -/
theorem not_precedes_of_take (hc : m.choice (ls.map fun l => l.head?.map f) = .take k)
    {l' : List α} (hl' : l' ∈ ls.map (advance f (· = k))) {b : α} (hb : b ∈ l') :
    m.precedes (f b) k = false := by
  obtain ⟨l, hl, hsub⟩ := mem_advance hl'
  refine not_precedes_of_mem (hord l hl) (fun a ha => ?_) (hsub.subset hb)
  exact (of_choice_take hc).1 _ (List.mem_map.2 ⟨l, hl, by rw [ha]; rfl⟩)

omit hord in
/-- What a merge of rows in order hands out is in order, and of each key it is what the operation
makes of the rows that the legs have of it. -/
theorem exists_combine_eq (hkeyed : ∀ l ∈ ls, Keyed m f l) (hord : ∀ l ∈ ls, InOrder m f l) :
    ∃ R, m.combine (ls.map .ofList) = .ofList R ∧ InOrder m f R ∧
      ∀ t, R.filter (f · = t) = m.operation.columns (ls.map fun l => l.filter (f · = t)) := by
  induction hn : ((ls.map Prospect.ofList).map Prospect.size).sum using Nat.strong_induction_on
    generalizing ls with
  | _ n ih =>
  have hfails := any_fails_ofList hkeyed
  have hkeys := keys_ofList hkeyed
  -- the legs that remain when their first rows are used are as the legs were
  have hkeyed' (p : Tuple → Bool) : ∀ l ∈ ls.map (advance f p), Keyed m f l := fun l' hl' => by
    obtain ⟨l, hl, hsub⟩ := mem_advance hl'
    exact fun a ha => hkeyed l hl a (hsub.subset ha)
  have hord' (p : Tuple → Bool) : ∀ l ∈ ls.map (advance f p), InOrder m f l := fun l' hl' => by
    obtain ⟨l, hl, hsub⟩ := mem_advance hl'
    exact (hord l hl).sublist hsub
  have ih {p : Tuple → Bool} {v : α}
      (hfound : (ls.map Prospect.ofList).findSome? (·.valueIf m.key p) = some v) := by
    have hlt := Prospect.sum_size_useIf_lt _ _ hfound
    rw [useEach_ofList hkeyed, hn] at hlt
    exact ih _ hlt (hkeyed' p) (hord' p) rfl
  cases hc : m.choice (ls.map fun l => l.head?.map f) with
  | stop r =>
    rw [← hkeys] at hc
    refine ⟨[], combine_of_stop hfails hc, .nil, fun t => ?_⟩
    rw [hkeys] at hc
    rw [columns_of_stop hc]
    rfl
  | take k =>
    obtain ⟨v, hfound, hv, hvk⟩ :=
      exists_findSome? hkeyed (mem_of_choice_take m hc) (p := (· = k)) (decide_eq_true rfl)
    have hvk : f v = k := of_decide_eq_true hvk
    obtain ⟨R, hR, horder, hcolumns⟩ := ih hfound
    refine ⟨v :: R, ?_, List.pairwise_cons.2 ⟨fun b hb => ?_, horder⟩, fun t => ?_⟩
    · rw [← hkeys] at hc
      rw [combine_of_take hfails hc hfound, useEach_ofList hkeyed, hR, Prospect.ofList]
    · have hmem : b ∈ R.filter (f · = f b) := List.mem_filter.2 ⟨hb, decide_eq_true rfl⟩
      rw [hcolumns] at hmem
      obtain ⟨same, hsame, hb⟩ := mem_columns _ hmem
      obtain ⟨l, hl, rfl⟩ := List.mem_map.1 hsame
      rw [hvk]
      exact not_precedes_of_take hord hc hl (List.mem_filter.1 hb).1
    · by_cases ht : k = t
      · subst ht
        rw [List.filter_cons, if_pos (decide_eq_true hvk), hcolumns, columns_of_take hord hc hv]
      · rw [List.filter_cons, if_neg (by simpa [hvk] using ht), hcolumns]
        exact columns_advance fun l _ a _ ha hat => ht ((of_decide_eq_true ha).symm.trans hat)
  | pass k =>
    obtain ⟨k', hk', hne⟩ := exists_of_choice_pass m hc
    obtain ⟨v, hfound, -, -⟩ := exists_findSome? hkeyed hk' (p := (· ≠ k)) (decide_eq_true hne)
    obtain ⟨R, hR, horder, hcolumns⟩ := ih hfound
    refine ⟨R, ?_, horder, fun t => (hcolumns t).trans (columns_of_pass hord hc t)⟩
    rw [← hkeys] at hc
    rw [combine_of_pass hfails hc hfound, useEach_ofList hkeyed, hR]

/-! ### Rows in strict order -/

/-- The keys of the rows go on in the direction of the merge. -/
def InStrictOrder (m : Merge α) (f : α → Tuple) (l : List α) : Prop :=
  l.Pairwise fun a b => m.precedes (f a) (f b) = true

omit hord in
/-- Rows are in strict order if they are in order and no key has two of them. -/
theorem inStrictOrder_iff :
    InStrictOrder m f l ↔ InOrder m f l ∧ ∀ t, (l.filter (f · = t)).length ≤ 1 := by
  refine ⟨fun h => ⟨?_, fun t => ?_⟩, ?_⟩
  · refine h.imp fun {a b} hab => Bool.eq_false_iff.2 fun hba => ?_
    exact Bool.eq_false_iff.1 (m.precedes_irrefl (f a)) (m.precedes_trans hab hba)
  · have hstrict := h.filter (f · = t)
    have hkey : ∀ a ∈ l.filter (f · = t), f a = t := fun a ha =>
      of_decide_eq_true (List.mem_filter.1 ha).2
    match hsame : l.filter (f · = t) with
    | [] | [_] => simp
    | a :: b :: rest =>
      rw [hsame] at hstrict hkey
      have hab := (List.pairwise_cons.1 hstrict).1 b List.mem_cons_self
      rw [hkey a (by simp), hkey b (by simp), m.precedes_irrefl] at hab
      cases hab
  · rintro ⟨h, hone⟩
    induction l with
    | nil => exact .nil
    | cons a l ih =>
      obtain ⟨ha, hl⟩ := List.pairwise_cons.1 h
      refine List.pairwise_cons.2 ⟨fun b hb => m.precedes_of_ne (fun hba => ?_) (ha b hb),
        ih hl fun t => ?_⟩
      · have htwo := hone (f a)
        have hmem : b ∈ l.filter (f · = f a) := List.mem_filter.2 ⟨hb, decide_eq_true hba⟩
        rw [List.filter_cons, if_pos (decide_eq_true rfl), List.length_cons] at htwo
        have := List.length_pos_of_mem hmem
        omega
      · exact Nat.le_trans ((List.sublist_cons_self a l).filter _).length_le (hone t)

omit hord in
/-- A merge of rows in strict order, where rows of one key are the same, hands out in strict order
the rows that some legs have or that all have. -/
theorem exists_combine_eq_of_strict (hls : ls ≠ []) (hkeyed : ∀ l ∈ ls, Keyed m f l)
    (hstrict : ∀ l ∈ ls, InStrictOrder m f l)
    (hsame : ∀ l ∈ ls, ∀ a ∈ l, ∀ l' ∈ ls, ∀ b ∈ l', f a = f b → a = b) :
    ∃ R, m.combine (ls.map .ofList) = .ofList R ∧ InStrictOrder m f R ∧
      ∀ a, a ∈ R ↔ m.operation.OfLegs (a ∈ ·) ls := by
  obtain ⟨R, hR, horder, hcolumns⟩ :=
    exists_combine_eq hkeyed fun l hl => (inStrictOrder_iff.1 (hstrict l hl)).1
  refine ⟨R, hR, inStrictOrder_iff.2 ⟨horder, fun t => ?_⟩, fun a => ?_⟩
  · rw [hcolumns]
    refine length_columns_le _ fun l' hl' => ?_
    obtain ⟨l, hl, rfl⟩ := List.mem_map.1 hl'
    exact (inStrictOrder_iff.1 (hstrict l hl)).2 t
  · have hmem (l : List α) : a ∈ l.filter (f · = f a) ↔ a ∈ l := by simp
    by_cases ha : ∃ l ∈ ls, a ∈ l
    · obtain ⟨l, hl, ha⟩ := ha
      rw [← hmem R, hcolumns, mem_columns_iff _ (by simpa using hls), ofLegs_map]
      · exact iff_of_eq (congrArg (m.operation.OfLegs · ls) (funext fun l => propext (hmem l)))
      · intro l' hl' b hb
        obtain ⟨u, hu, rfl⟩ := List.mem_map.1 hl'
        obtain ⟨hb, hba⟩ := List.mem_filter.1 hb
        exact (hsame l hl a ha u hu b hb (of_decide_eq_true hba).symm).symm
    · refine iff_of_false (fun haR => ha ?_) fun hlegs => ha (exists_of_ofLegs _ hls hlegs)
      rw [← hmem R, hcolumns] at haR
      obtain ⟨l', hl', ha'⟩ := mem_columns _ haR
      obtain ⟨l, hl, rfl⟩ := List.mem_map.1 hl'
      exact ⟨l, hl, (hmem l).1 ha'⟩

end Rows

end ResumableQuery.Cursor.Merge
