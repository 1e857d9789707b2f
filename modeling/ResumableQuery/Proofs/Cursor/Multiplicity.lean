import ResumableQuery.Cursor.Source
import ResumableQuery.Proofs.Cursor.Delivery

/-!
# How often a merge returns a key

A merge of legs whose rows are in the order of its keys returns each key as often as the leg has it
that has it most often (`union_returns`) or least often (`intersection_returns`).  The legs are any
cursors that hand out their rows when they are read side by side, and that end because they have no
more (`HandsOut`); they may be empty, have several rows of a key and share keys, and there may be
any number of them.
-/

namespace ResumableQuery.Cursor.Merge

variable {m : Merge α} {f : α → Tuple} {l l' R : List α} {ls : List (List α)}

/-! ### Rows in order are given by the rows of each key -/

theorem InOrder.eq_of_filter_eq (h : InOrder m f l) (h' : InOrder m f l')
    (hsame : ∀ t, l.filter (f · = t) = l'.filter (f · = t)) : l = l' := by
  have mem (b : α) : b ∈ l ↔ b ∈ l' := by
    have hb := congrArg (b ∈ ·) (hsame (f b))
    simpa using hb
  induction l generalizing l' with
  | nil => exact (List.eq_nil_iff_forall_not_mem.2 fun b hb => by simpa using (mem b).2 hb).symm
  | cons a as ih =>
    cases l' with
    | nil => simpa using (mem a).1 List.mem_cons_self
    | cons b bs =>
      have hab : m.precedes (f b) (f a) = false := by
        rcases List.mem_cons.1 ((mem b).2 List.mem_cons_self) with rfl | hb
        · exact m.precedes_irrefl _
        · exact (List.pairwise_cons.1 h).1 b hb
      have hba : m.precedes (f a) (f b) = false := by
        rcases List.mem_cons.1 ((mem a).1 List.mem_cons_self) with rfl | ha
        · exact m.precedes_irrefl _
        · exact (List.pairwise_cons.1 h').1 a ha
      have hkey : f a = f b := by
        by_contra hne
        rw [m.precedes_of_ne hne hba] at hab
        cases hab
      have hhead := hsame (f a)
      rw [List.filter_cons_of_pos (by simp), List.filter_cons_of_pos (by simp [hkey])] at hhead
      obtain rfl : a = b := (List.cons.inj hhead).1
      have htail (t : Tuple) : as.filter (f · = t) = bs.filter (f · = t) := by
        by_cases ht : f a = t
        · subst ht
          exact (List.cons.inj hhead).2
        · have hst := hsame t
          rwa [List.filter_cons_of_neg (by simpa using ht),
            List.filter_cons_of_neg (by simpa using ht)] at hst
      refine congrArg (a :: ·) (ih (List.pairwise_cons.1 h).2 (List.pairwise_cons.1 h').2 htail ?_)
      intro c
      have hc := congrArg (c ∈ ·) (htail (f c))
      simpa using hc

/-- The keys of rows in order are given by how often each occurs. -/
theorem InOrder.map_eq_of_countP_eq (h : InOrder m f l) (h' : InOrder m f l')
    (hsame : ∀ t, l.countP (f · = t) = l'.countP (f · = t)) : l.map f = l'.map f := by
  have hcount (t : Tuple) (l : List α) : (l.map f).count t = l.countP (f · = t) := by
    rw [List.count_eq_countP, List.countP_map]
    exact List.countP_congr fun a _ => by simp
  have hsorted {l : List α} (h : InOrder m f l) :
      (l.map f).Pairwise fun a b => m.precedes b a = false := List.pairwise_map.2 h
  refine List.Perm.eq_of_pairwise (fun a b _ _ hab hba => ?_) (hsorted h) (hsorted h')
    (List.perm_iff_count.2 fun t => ?_)
  · by_contra hne
    rw [m.precedes_of_ne hne hba] at hab
    cases hab
  · rw [hcount, hcount, hsame]

theorem InStrictOrder.filter_eq_singleton (h : InStrictOrder m f l) {v : α} (hv : v ∈ l) :
    l.filter (f · = f v) = [v] := by
  have hone := (inStrictOrder_iff.1 h).2 (f v)
  have hmem : v ∈ l.filter (f · = f v) := List.mem_filter.2 ⟨hv, decide_eq_true rfl⟩
  match hrows : l.filter (f · = f v), hone, hmem with
  | [u], _, hmem => rw [List.mem_singleton.1 hmem]

/-! ### What a merge returns -/

/-- Opened at a continuation, the merge returns some rows and that there are no more. -/
def Returns (m : Merge α) (openers : List (OpenLeg α)) (c : Continuation) (w : World)
    (R : List α) : Prop :=
  ∃ cur, m.openAt openers c = .ok cur ∧
    ((Handle.new cur).collect w).2 = .ok (R, .sourceExhausted, .done)

/-- Legs that are opened at continuations, and that are read side by side from a world on, hand out
all of some rows. -/
def HandsOut (places : List (OpenLeg α × Continuation)) (ls : List (List α)) (w : World) : Prop :=
  ∃ xs, List.Forall₂ OpensLeg places xs ∧ xs.map Input.rows = ls ∧ Supplied false xs w

theorem hands_rowsFrom (i : UInt64) (l : List α) :
    Hands (fun _ _ => True) false (rowsFrom i l) l := by
  induction l generalizing i with
  | nil => exact .stop (fun _ => rfl) (fun h => by cases h) trivial
  | cons a l ih => exact .row trivial (ih (i + 1))

/-- Lists that are there hand out their elements. -/
theorem handsOut_lists (ls : List (List α)) (w : World) :
    HandsOut ((ls.map Cursor.list).zip (List.replicate ls.length .start)) ls w := by
  refine ⟨ls.map fun l => .unasked (fun _ _ => True) (rowsFrom 0 l) l, ?_, ?_, ?_⟩
  · induction ls with
    | nil => exact .nil
    | cons l ls ih => exact .cons (.opened (fun h => by cases h) rfl trivial) ih
  · rw [List.map_map]
    exact List.map_id ls
  · refine supplied_of_steady (fun x hx => ?_) w
    obtain ⟨l, -, rfl⟩ := List.mem_map.1 hx
    exact (hands_rowsFrom 0 l).steady

section Returns

variable {openers : List (OpenLeg α)} {c : Continuation} {ts : List Continuation} {w : World}
  (hc : c ≠ .done) (hresume : m.resume openers.length c = .ok ts)
  (hlegs : HandsOut (openers.zip ts) ls w) (hkeyed : ∀ l ∈ ls, Keyed m f l)

include hc hresume hlegs hkeyed

theorem exists_returns : ∃ R, m.Returns openers c w R ∧ m.combine (ls.map .ofList) = .ofList R := by
  obtain ⟨xs, hopen, rfl, hsupply⟩ := hlegs
  obtain ⟨cur, hcur, hdelivers⟩ :=
    delivers_openAt hc hresume hopen (List.forall_mem_map.1 hkeyed) hsupply
  obtain ⟨hend, hcombine⟩ := hdelivers.combine_eq hkeyed
  rcases hrun : cur.run w with ⟨w', rows, e⟩
  rw [hrun] at hend hcombine
  obtain rfl : e = .stopped .sourceExhausted .done := hend
  exact ⟨rows.map Prod.fst, ⟨cur, hcur, by rw [collect_new hrun]⟩, hcombine⟩

theorem exists_returns_columns (hord : ∀ l ∈ ls, InOrder m f l) :
    ∃ R, m.Returns openers c w R ∧ InOrder m f R ∧
      ∀ t, R.filter (f · = t) = m.operation.columns (ls.map fun l => l.filter (f · = t)) := by
  obtain ⟨R, hreturns, hcombine⟩ := exists_returns hc hresume hlegs hkeyed
  obtain ⟨R', hcombine', hR'⟩ := exists_combine_eq hkeyed hord
  obtain rfl : R = R' := Prospect.ofList_injective (hcombine.symm.trans hcombine')
  exact ⟨R, hreturns, hR'⟩

end Returns

/-! ### Unions -/

/-- Rows in order that hold each key as often as the list that has it most often, and in each place
the row of the first list that has so many. -/
structure IsUnion (m : Merge α) (f : α → Tuple) (ls : List (List α)) (R : List α) : Prop where
  inOrder : InOrder m f R
  count (t : Tuple) :
    R.countP (f · = t) = (ls.map fun l => l.countP (f · = t)).max?.getD 0
  row (t : Tuple) (j : Nat) :
    (R.filter (f · = t))[j]? = ls.findSome? fun l => (l.filter (f · = t))[j]?

theorem isUnion_of_columns (hord : InOrder m f R)
    (hcolumns : ∀ t, R.filter (f · = t) = overlay (ls.map fun l => l.filter (f · = t))) :
    IsUnion m f ls R := by
  refine ⟨hord, fun t => ?_, fun t j => ?_⟩
  · rw [List.countP_eq_length_filter, hcolumns, length_overlay, List.map_map]
    simp only [Function.comp_def, List.countP_eq_length_filter]
  · rw [hcolumns, getElem?_overlay, List.findSome?_map]
    rfl

namespace IsUnion

variable (h : IsUnion m f ls R)

include h

theorem find?_eq (t : Tuple) :
    R.find? (f · = t) = ls.findSome? fun l => l.find? (f · = t) := by
  have hrow := h.row t 0
  simp only [← List.head?_eq_getElem?, List.head?_filter] at hrow
  exact hrow

theorem mem_map_iff (t : Tuple) : t ∈ R.map f ↔ ∃ l ∈ ls, t ∈ l.map f := by
  have mem (l : List α) : t ∈ l.map f ↔ (l.find? (f · = t)).isSome = true := by
    simp [List.find?_isSome]
  rw [mem, h.find?_eq, List.findSome?_isSome_iff]
  exact exists_congr fun l => and_congr_right fun _ => (mem l).symm

theorem inStrictOrder (hstrict : ∀ l ∈ ls, InStrictOrder m f l) : InStrictOrder m f R := by
  refine inStrictOrder_iff.2 ⟨h.inOrder, fun t => ?_⟩
  rw [← List.countP_eq_length_filter, h.count]
  cases hmax : (ls.map fun l => l.countP (f · = t)).max? with
  | none => exact Nat.zero_le 1
  | some n =>
    obtain ⟨l, hl, rfl⟩ := List.mem_map.1 (List.max?_eq_some_iff.1 hmax).1
    rw [Option.getD_some, List.countP_eq_length_filter]
    exact (inStrictOrder_iff.1 (hstrict l hl)).2 t

theorem findSome?_eq (hstrict : ∀ l ∈ ls, InStrictOrder m f l) {v : α} (hv : v ∈ R) :
    (ls.findSome? fun l => l.find? (f · = f v)) = some v := by
  rw [← h.find?_eq, ← List.head?_filter, (h.inStrictOrder hstrict).filter_eq_singleton hv]
  rfl

theorem map_eq_of_perm {ls' : List (List α)} {R' : List α} (h' : IsUnion m f ls' R')
    (hperm : ls'.Perm ls) : R'.map f = R.map f := by
  refine h'.inOrder.map_eq_of_countP_eq h.inOrder fun t => ?_
  rw [h'.count, h.count]
  refine congrArg (·.getD 0) (Option.ext fun n => ?_)
  rw [List.max?_eq_some_iff, List.max?_eq_some_iff]
  simp only [(hperm.map _).mem_iff]

end IsUnion

theorem HandsOut.perm {places places' : List (OpenLeg α × Continuation)} {w : World}
    (h : HandsOut places ls w) (hperm : places'.Perm places) :
    ∃ ls', ls'.Perm ls ∧ HandsOut places' ls' w := by
  obtain ⟨xs, hopen, rfl, hsupply⟩ := h
  obtain ⟨xs', hopen', hxs⟩ := List.perm_comp_forall₂ hperm hopen
  exact ⟨_, hxs.map _, xs', hopen', rfl, hsupply.perm hxs.symm⟩

/-- A union of legs in order returns each key as often as the leg that has it most often, in each
place with the row of the first leg that has so many.  If the keys of each leg are in strict order
then so are those that are returned, each with the row of the first leg that has it.  In whatever
order the legs come, the keys that are returned are the same. -/
theorem union_returns {openers : List (OpenLeg α)} {c : Continuation} {ts : List Continuation}
    {w : World} (hop : m.operation = .union) (hc : c ≠ .done)
    (hresume : m.resume openers.length c = .ok ts) (hlegs : HandsOut (openers.zip ts) ls w)
    (hkeyed : ∀ l ∈ ls, Keyed m f l) (hord : ∀ l ∈ ls, InOrder m f l) :
    ∃ R, m.Returns openers c w R ∧ IsUnion m f ls R ∧
      ((∀ l ∈ ls, InStrictOrder m f l) → InStrictOrder m f R ∧
        (∀ t, t ∈ R.map f ↔ ∃ l ∈ ls, t ∈ l.map f) ∧
        ∀ v ∈ R, (ls.findSome? fun l => l.find? (f · = f v)) = some v) ∧
      ∀ openers' c' ts', c' ≠ .done → m.resume openers'.length c' = .ok ts' →
        (openers'.zip ts').Perm (openers.zip ts) →
          ∃ R', m.Returns openers' c' w R' ∧ R'.map f = R.map f := by
  have union {openers : List (OpenLeg α)} {c : Continuation} {ts : List Continuation}
      {ls : List (List α)} (hc : c ≠ .done) (hresume : m.resume openers.length c = .ok ts)
      (hlegs : HandsOut (openers.zip ts) ls w) (hkeyed : ∀ l ∈ ls, Keyed m f l)
      (hord : ∀ l ∈ ls, InOrder m f l) : ∃ R, m.Returns openers c w R ∧ IsUnion m f ls R := by
    obtain ⟨R, hR, horder, hcolumns⟩ := exists_returns_columns hc hresume hlegs hkeyed hord
    rw [hop] at hcolumns
    exact ⟨R, hR, isUnion_of_columns horder hcolumns⟩
  obtain ⟨R, hR, hunion⟩ := union hc hresume hlegs hkeyed hord
  refine ⟨R, hR, hunion, fun hstrict => ⟨hunion.inStrictOrder hstrict, hunion.mem_map_iff,
    fun v => hunion.findSome?_eq hstrict⟩, fun openers' c' ts' hc' hresume' hperm => ?_⟩
  obtain ⟨ls', hls, hlegs'⟩ := hlegs.perm hperm
  obtain ⟨R', hR', hunion'⟩ := union hc' hresume' hlegs'
    (fun l hl => hkeyed l (hls.mem_iff.1 hl)) fun l hl => hord l (hls.mem_iff.1 hl)
  exact ⟨R', hR', hunion.map_eq_of_perm hunion' hls⟩

/-- A merge of numbers that are marked with where they come from. -/
def sampleMerge (operation : SetOperation) (reverse : Bool) : Merge (Int64 × String) :=
  ⟨operation, fun v => .ok [.int v.1], reverse, 7⟩

/-- Numbers that increase, in one leg several times and in one leg none. -/
def sampleLegs : List (List (Int64 × String)) :=
  [[(1, "a"), (1, "b"), (3, "c")], [(1, "d"), (3, "e"), (3, "f"), (4, "g")], []]

/-- The number as a key. -/
def sampleKey (v : Int64 × String) : Tuple := [.int v.1]

theorem keyed_sampleMerge (operation : SetOperation) (reverse : Bool)
    (l : List (Int64 × String)) : Keyed (sampleMerge operation reverse) sampleKey l :=
  fun _ _ => rfl

theorem union_returns_sample :
    ∃ R, (sampleMerge .union false).Returns (sampleLegs.map list) .start .empty R ∧
      IsUnion (sampleMerge .union false) sampleKey sampleLegs R := by
  obtain ⟨R, hR, hunion, -⟩ := union_returns (m := sampleMerge .union false) rfl
    (c := .start) (by decide) rfl (handsOut_lists sampleLegs .empty)
    (fun l _ => keyed_sampleMerge .union false l) (by unfold InOrder; decide)
  exact ⟨R, hR, hunion⟩

example : (sampleMerge .union false).Returns (sampleLegs.map list) .start .empty
    [(1, "a"), (1, "b"), (3, "c"), (3, "f"), (4, "g")] := ⟨_, rfl, by cbv⟩

/-! ### Intersections -/

/-- Rows in order that hold each key as often as the list that has it least often, and these are
the first of the first list. -/
structure IsIntersection (m : Merge α) (f : α → Tuple) (l : List α) (ls : List (List α))
    (R : List α) : Prop where
  inOrder : InOrder m f R
  count (t : Tuple) :
    ((l :: ls).map fun l => l.countP (f · = t)).min? = some (R.countP (f · = t))
  rows (t : Tuple) : R.filter (f · = t) <+: l.filter (f · = t)

theorem isIntersection_of_columns (hord : InOrder m f R)
    (hcolumns : ∀ t, R.filter (f · = t) = shared ((l :: ls).map fun l => l.filter (f · = t))) :
    IsIntersection m f l ls R := by
  refine ⟨hord, fun t => ?_, fun t => ?_⟩
  · have hmin := min?_length_shared (l.filter (f · = t)) (ls.map fun l => l.filter (f · = t))
    rw [List.countP_eq_length_filter, hcolumns]
    simpa only [List.map_cons, List.map_map, Function.comp_def, ← List.countP_eq_length_filter]
      using hmin
  · rw [hcolumns]
    exact prefix_shared _ _

namespace IsIntersection

variable (h : IsIntersection m f l ls R)

include h

theorem countP_le {l' : List α} (hl' : l' ∈ l :: ls) (t : Tuple) :
    R.countP (f · = t) ≤ l'.countP (f · = t) :=
  (List.min?_eq_some_iff.1 (h.count t)).2 _ (List.mem_map.2 ⟨l', hl', rfl⟩)

theorem eq_nil_of_mem (hnil : [] ∈ l :: ls) : R = [] := by
  refine List.eq_nil_iff_forall_not_mem.2 fun v hv => ?_
  have hle := h.countP_le hnil (f v)
  have hpos : 0 < R.countP (f · = f v) := List.countP_pos_iff.2 ⟨v, hv, decide_eq_true rfl⟩
  rw [List.countP_nil] at hle
  omega

/-- Where no leg has a key twice, a row of the first leg comes if all legs have its key. -/
theorem eq_filter (hstrict : InStrictOrder m f l) :
    R = l.filter fun v => ls.all fun l' => l'.any (f · = f v) := by
  obtain ⟨hord, hone⟩ := inStrictOrder_iff.1 hstrict
  refine h.inOrder.eq_of_filter_eq (hord.sublist List.filter_sublist) fun t => ?_
  rw [List.filter_filter]
  have hrows := h.rows t
  by_cases hall : ∀ l' ∈ ls, 0 < l'.countP (f · = t)
  · -- each other leg has the key, so the one that has it least often has it as often as the first
    have hle : (l.filter (f · = t)).length ≤ (R.filter (f · = t)).length := by
      obtain ⟨l', hl', hcount⟩ := List.mem_map.1 (List.min?_eq_some_iff.1 (h.count t)).1
      rw [← R.countP_eq_length_filter, ← hcount]
      rcases List.mem_cons.1 hl' with rfl | hl'
      · rw [List.countP_eq_length_filter]
      · exact Nat.le_trans (hone t) (hall l' hl')
    rw [hrows.eq_of_length_le hle]
    refine List.filter_congr fun v _ => ?_
    by_cases hvt : f v = t
    · have hany : (ls.all fun l' => l'.any (f · = f v)) = true :=
        List.all_eq_true.2 fun l' hl' => by simpa [hvt] using List.countP_pos_iff.1 (hall l' hl')
      rw [hany, Bool.and_true]
    · simp [hvt]
  · push Not at hall
    obtain ⟨l', hl', hnone⟩ := hall
    have hle := h.countP_le (List.mem_cons_of_mem l hl') t
    have hnil : R.filter (f · = t) = [] := by
      rw [← List.length_eq_zero_iff, ← List.countP_eq_length_filter]
      omega
    rw [hnil, eq_comm, List.filter_eq_nil_iff]
    intro v _ hv
    obtain ⟨hvt, hany⟩ := Bool.and_eq_true_iff.1 hv
    have hkey := List.all_eq_true.1 hany l' hl'
    rw [of_decide_eq_true hvt] at hkey
    have hpos : 0 < l'.countP (f · = t) := List.countP_pos_iff.2 (List.any_eq_true.1 hkey)
    omega

end IsIntersection

/-- An intersection of legs in order returns each key as often as the leg that has it least often,
with the first rows that the first leg has of it.  If the keys of each leg are in strict order then
the rows are those of the first leg whose keys all legs have, and there are none if a leg has
none. -/
theorem intersection_returns {openers : List (OpenLeg α)} {c : Continuation}
    {ts : List Continuation} {w : World} (hop : m.operation = .intersection) (hc : c ≠ .done)
    (hresume : m.resume openers.length c = .ok ts) (hlegs : HandsOut (openers.zip ts) (l :: ls) w)
    (hkeyed : ∀ l' ∈ l :: ls, Keyed m f l') (hord : ∀ l' ∈ l :: ls, InOrder m f l') :
    ∃ R, m.Returns openers c w R ∧ IsIntersection m f l ls R ∧
      ((∀ l' ∈ l :: ls, InStrictOrder m f l') →
        R = l.filter fun v => ls.all fun l' => l'.any (f · = f v)) ∧
      ([] ∈ l :: ls → R = []) := by
  obtain ⟨R, hR, horder, hcolumns⟩ := exists_returns_columns hc hresume hlegs hkeyed hord
  rw [hop] at hcolumns
  have hintersection := isIntersection_of_columns horder hcolumns
  exact ⟨R, hR, hintersection,
    fun hstrict => hintersection.eq_filter (hstrict l List.mem_cons_self),
    hintersection.eq_nil_of_mem⟩

/-- Numbers that decrease. -/
def sampleLegBack : List (Int64 × String) := [(4, "a"), (3, "b"), (3, "c"), (1, "d"), (1, "e")]

theorem intersection_returns_sample :
    ∃ R, (sampleMerge .intersection true).Returns
        ((sampleLegBack :: [[(3, "f"), (1, "g"), (1, "h")]]).map list) .start .empty R ∧
      IsIntersection (sampleMerge .intersection true) sampleKey sampleLegBack
        [[(3, "f"), (1, "g"), (1, "h")]] R := by
  obtain ⟨R, hR, hintersection, -⟩ := intersection_returns (m := sampleMerge .intersection true)
    rfl (c := .start) (by decide) rfl
    (handsOut_lists (sampleLegBack :: [[(3, "f"), (1, "g"), (1, "h")]]) .empty)
    (fun l _ => keyed_sampleMerge .intersection true l) (by unfold InOrder; decide)
  exact ⟨R, hR, hintersection⟩

end ResumableQuery.Cursor.Merge
