import Mathlib.Data.List.Chain
import ResumableQuery.Proofs.Search.Spans

/-!
# Nearness of single positions

Where each clause of a nearness query asks for single positions, taking the first span that follows
misses nothing: the spans that are reported begin at the positions from which others can be chosen
for the remaining clauses, in order and with no more than `slop` positions left out
(`Partition.reports_feasible`).  Phrases are such queries without room between the positions, with
an unfinished word at the end or without.
-/

namespace ResumableQuery.Search

/-- The query asks for single positions. -/
def Query.IsSingle : Query → Prop
  | .spanTerm _ _ | .spanStart _ _ => True
  | .mask q _ => q.IsSingle
  | _ => False

/-- The token at a position is what a query for single positions asks for. -/
def HasAt (d : StoredDocument) : Query → Nat → Prop
  | .spanTerm field t, i => (d.tokens field)[i]? = some t
  | .spanStart field start, i => ∃ t, (d.tokens field)[i]? = some t ∧ beginsWith t start = true
  | .mask q _, i => HasAt d q i
  | _, _ => False

/-- With the first position, ascending positions can be chosen that satisfy the clauses one by one
and leave out no more than `slop` positions.  The subtractions are exact, since the last position is
at least as far from the first as there are further clauses. -/
def Feasible (d : StoredDocument) (clauses : List Query) (slop first : Nat) : Prop :=
  ∃ later, (first :: later).Pairwise (· < ·) ∧ List.Forall₂ (HasAt d) clauses (first :: later) ∧
    (first :: later).getLast (List.cons_ne_nil _ _) - first - (clauses.length - 1) ≤ slop

/-- The span of a single position. -/
def spanAt (i : Nat) : Nat × Nat := (i, i + 1)

variable {d : StoredDocument} {q : Query} {clauses : List Query} {field : String}

theorem Query.IsSingle.width (h : q.IsSingle) : q.width? = some 1 := by
  induction q using Query.ind with
  | spanTerm | spanStart => rw [Query.width?]
  | mask q field ih =>
    rw [Query.width?]
    exact ih h
  | _ => cases h

theorem Query.IsSingle.allButLast (h : q.IsSingle) (P : Query → Prop) : q.AllButLast P := by
  induction q using Query.ind with
  | spanTerm | spanStart => rw [Query.AllButLast] <;> simp
  | mask q field ih =>
    rw [Query.AllButLast]
    exact ih h
  | _ => cases h

theorem orderly_of_single (single : ∀ c ∈ clauses, c.IsSingle) :
    ClausesButLast (fun c => Orderly (HasSpan d c)) clauses := by
  induction clauses with
  | nil => trivial
  | cons c clauses ih =>
    obtain ⟨hc, hclauses⟩ := List.forall_mem_cons.1 single
    rw [ClausesButLast]
    exact ⟨fun _ => orderly_of_width (Option.isSome_of_eq_some hc.width), hc.allButLast _,
      ih hclauses⟩

theorem hasSpan_single_iff (h : q.IsSingle) {s : Nat × Nat} :
    HasSpan d q s ↔ HasAt d q s.1 ∧ s = spanAt s.1 := by
  have here : s = spanAt s.1 ↔ s.2 = s.1 + 1 := by simp [spanAt, Prod.ext_iff]
  induction q using Query.ind with
  | spanTerm | spanStart => rw [HasSpan, here, HasAt]
  | mask q field ih =>
    rw [HasSpan, HasAt]
    exact ih h
  | _ => cases h

/-- To choose spans is to choose positions. -/
theorem chosen_single_iff (single : ∀ c ∈ clauses, c.IsSingle) {chosen : List (Nat × Nat)} :
    Chosen d clauses chosen ↔
      ∃ positions, chosen = positions.map spanAt ∧ List.Forall₂ (HasAt d) clauses positions := by
  induction clauses generalizing chosen with
  | nil => simp [Chosen]
  | cons c clauses ih =>
    obtain ⟨hc, hclauses⟩ := List.forall_mem_cons.1 single
    simp only [Chosen, ih hclauses, hasSpan_single_iff hc, List.forall₂_cons_left_iff]
    constructor
    · rintro ⟨s, rest, rfl, ⟨hs, hat⟩, positions, rfl, hrest⟩
      exact ⟨s.1 :: positions, by rw [List.map_cons, ← hat], s.1, positions, hs, hrest, rfl⟩
    · rintro ⟨_, rfl, i, positions, hi, hrest, rfl⟩
      exact ⟨spanAt i, positions.map spanAt, rfl, ⟨hi, rfl⟩, positions, rfl, hrest⟩

theorem inOrder_map_spanAt {positions : List Nat} :
    InOrder (positions.map spanAt) ↔ positions.Pairwise (· < ·) := by
  rw [InOrder, List.isChain_map, ← List.isChain_iff_pairwise]
  rfl

/-- The positions that are left out are those that are neither chosen nor outside. -/
theorem positionsBetween_map_spanAt {first : Nat} {later : List Nat}
    (h : (first :: later).Pairwise (· < ·)) :
    first + later.length + positionsBetween ((first :: later).map spanAt) =
      (first :: later).getLast (List.cons_ne_nil _ _) := by
  induction later generalizing first with
  | nil => simp [positionsBetween]
  | cons next later ih =>
    obtain ⟨hfirst, hlater⟩ := List.pairwise_cons.1 h
    have hnext := hfirst next List.mem_cons_self
    have := ih hlater
    rw [List.getLast_cons (List.cons_ne_nil _ _), ← this]
    simp only [List.map_cons, positionsBetween, spanAt, List.length_cons]
    omega

theorem exists_hasSpan_near_iff (single : ∀ c ∈ clauses, c.IsSingle) {slop first : Nat} :
    (∃ stop, HasSpan d (.spanNear field clauses slop) (first, stop)) ↔
      Feasible d clauses slop first := by
  simp only [HasSpan, chosen_single_iff single]
  constructor
  · rintro ⟨stop, _, ⟨positions, rfl, hpositions⟩, order, hroom, hfirst, -⟩
    cases positions with
    | nil => cases hfirst
    | cons i later =>
      obtain rfl : i = first := Option.some.inj hfirst
      rw [inOrder_map_spanAt] at order
      refine ⟨later, order, hpositions, ?_⟩
      have := positionsBetween_map_spanAt order
      have := hpositions.length_eq
      rw [List.length_cons] at this
      omega
  · rintro ⟨later, order, hpositions, hroom⟩
    have hbetween := positionsBetween_map_spanAt order
    have := hpositions.length_eq
    rw [List.length_cons] at this
    refine ⟨(first :: later).getLast (List.cons_ne_nil _ _) + 1, _, ⟨_, rfl, hpositions⟩,
      inOrder_map_spanAt.2 order, by omega, rfl, ?_⟩
    rw [List.getLast?_map, List.getLast?_eq_some_getLast (List.cons_ne_nil _ _)]
    rfl

namespace Partition

/-! ### Phrases -/

theorem exists_mem_spans_phrase_iff {terms : List String} (h : terms ≠ []) {first : Nat} :
    (∃ last, (first, last) ∈ spans d (.spanNear field (terms.map (.spanTerm field)) 0)) ↔
      terms <+: (d.tokens field).drop first := by
  have clauses (l : List String) : allSpans d (l.map (.spanTerm field)) =
      l.map fun t => positionsOf (· == t) (d.tokens field) := by
    rw [allSpans_eq_map, List.map_map]
    exact List.map_congr_left fun t _ => by rw [Function.comp_apply, spans]
  have chained := @chain_terms terms (d.tokens field) first []
  rw [List.append_nil] at chained
  rw [spans, clauses]
  cases terms with
  | nil => exact absurd rfl h
  | cons t terms =>
    rw [List.map_cons]
    refine exists_mem_spanNear_iff.trans (chained.trans ?_)
    simp [chain]

theorem countWindows_eq (terms tokens : List String) : countWindows terms tokens =
    ((List.range tokens.length).filter fun i => terms.isPrefixOf (tokens.drop i)).length := by
  induction tokens with
  | nil => rfl
  | cons t tokens ih =>
    rw [countWindows, ih, List.length_cons, List.range_succ_eq_map, List.filter_cons,
      List.filter_map, List.drop_zero]
    split
    · rw [List.length_cons, List.length_map, Nat.add_comm]
      rfl
    · rw [List.length_map, Nat.zero_add]
      rfl

/-- A phrase stands in as many windows as the nearness query for its terms reports spans. -/
theorem countWindows_eq_length_spans {terms : List String} (h : terms ≠ []) :
    countWindows terms (d.tokens field) =
      (spans d (.spanNear field (terms.map (.spanTerm field)) 0)).length := by
  let near := Query.spanNear field (terms.map (.spanTerm field)) 0
  have sorted := pairwise_spans d near
  have beginnings : (spans d near).length = ((spans d near).map (·.1)).length := by simp
  rw [countWindows_eq, beginnings]
  refine List.Perm.length_eq ((List.perm_ext_iff_of_nodup (List.nodup_range.filter _) ?_).2 ?_)
  · exact List.pairwise_map.2 (sorted.imp Nat.ne_of_lt)
  · intro first
    have begins : (∃ last, (first, last) ∈ spans d near) ↔ terms <+: (d.tokens field).drop first :=
      exists_mem_spans_phrase_iff h
    simp only [List.mem_map, Prod.exists, exists_and_right, exists_eq_right, begins,
      List.mem_filter, List.mem_range, List.isPrefixOf_iff_prefix, and_iff_right_iff_imp]
    intro hprefix
    have := hprefix.length_le
    have := List.length_pos_iff.2 h
    rw [List.length_drop] at *
    omega

/-! ### Beginnings -/

/-- The spans of a nearness query for single positions are reported in ascending order, one for each
position from which the others can be chosen.  So a phrase with an unfinished word is found in the
documents that hold it, and a phrase of terms stands in as many windows as the nearness query for
them, without room, has spans. -/
theorem reports_feasible (d : StoredDocument) (field : String) {clauses : List Query}
    (single : ∀ c ∈ clauses, c.IsSingle) (slop : Nat) :
    ((spans d (.spanNear field clauses slop)).map (·.1)).Pairwise (· < ·) ∧
      (∀ first, first ∈ (spans d (.spanNear field clauses slop)).map (·.1) ↔
        Feasible d clauses slop first) ∧
      (∀ (p : Partition) (terms : List String) (start : String),
        (p.score d (.phraseStart field terms start)).isSome ↔
          HoldsPhrase terms (some start) (d.tokens field)) ∧
      ∀ terms, terms ≠ [] → countWindows terms (d.tokens field) =
        (spans d (.spanNear field (terms.map (.spanTerm field)) 0)).length := by
  have orderly : (Query.spanNear field clauses slop).AllButLast
      fun c => Orderly (HasSpan d c) := by
    rw [Query.AllButLast]
    exact orderly_of_single single
  refine ⟨List.pairwise_map.2 (pairwise_spans d _), fun first => ?_,
    fun p terms start => isSome_score_phraseStart, fun terms h => countWindows_eq_length_spans h⟩
  have feasible : (∃ stop, HasSpan d (.spanNear field clauses slop) (first, stop)) ↔
      Feasible d clauses slop first := exists_hasSpan_near_iff single
  rw [← feasible, List.mem_map]
  constructor
  · rintro ⟨s, hs, rfl⟩
    exact ⟨s.2, hasSpan_of_mem hs⟩
  · rintro ⟨stop, hspan⟩
    obtain ⟨stop', hmem⟩ := exists_mem_spans_of_hasSpan orderly hspan
    exact ⟨_, hmem, rfl⟩

/-- The word a, and then a word that begins with c. -/
def aThenC : List Query := [.spanTerm "body" "a", .mask (.spanStart "body" "c") "body"]

/-- One word stands between the first two that are asked for, and none between the last two. -/
theorem reports_feasible_sample : (∀ c ∈ aThenC, c.IsSingle) ∧
    Feasible (sampleNote "a x cat a cot").2 aThenC 1 0 ∧
      Feasible (sampleNote "a x cat a cot").2 aThenC 1 3 ∧
      ¬Feasible (sampleNote "a x cat a cot").2 aThenC 0 0 := by
  have single : ∀ c ∈ aThenC, c.IsSingle := by simp [aThenC, Query.IsSingle]
  obtain ⟨-, near, -⟩ := reports_feasible (sampleNote "a x cat a cot").2 "body" single 1
  obtain ⟨-, adjacent, -⟩ := reports_feasible (sampleNote "a x cat a cot").2 "body" single 0
  refine ⟨single, (near 0).1 ?_, (near 3).1 ?_, fun h => ?_⟩
  · decide +kernel
  · decide +kernel
  · have hmem := (adjacent 0).2 h
    revert hmem
    decide +kernel

end Partition

end ResumableQuery.Search
