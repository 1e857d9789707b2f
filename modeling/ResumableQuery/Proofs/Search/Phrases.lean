import ResumableQuery.Proofs.Ordered
import ResumableQuery.Search.Highlight
import ResumableQuery.Search.Partition

/-!
# Phrases and words

What was typed is looked for twice.  The index finds documents in which the words follow each other
in a field (`HoldsPhrase`, `isSome_score_anyPhrase`).  Before a text is suggested it is searched
again, but then for the words alone, in whatever order they stand (`HoldsWords`, `satisfies_iff`).
-/

namespace ResumableQuery.Search

/-- The terms stand at consecutive positions, and if there is an unfinished word, the token after
them begins with it. -/
def HoldsPhrase (terms : List String) (unfinished : Option String) (tokens : List String) : Prop :=
  ∃ front back, tokens = front ++ terms ++ back ∧
    ∀ start ∈ unfinished, ∃ word ∈ back.head?, beginsWith word start = true

/-- Every term is among the tokens, and if there is an unfinished word, a token that is none of the
terms begins with it. -/
def HoldsWords (terms : List String) (unfinished : Option String) (tokens : List String) : Prop :=
  (∀ t ∈ terms, t ∈ tokens) ∧
    ∀ start ∈ unfinished, ∃ word ∈ tokens, word ∉ terms ∧ beginsWith word start = true

namespace Partition

/-! ### Windows -/

theorem countWindows_ne_zero_iff {terms tokens : List String} (h : terms ≠ []) :
    countWindows terms tokens ≠ 0 ↔ terms <:+: tokens := by
  induction tokens with
  | nil =>
    exact ⟨fun hcount => absurd rfl hcount, fun hwindow => absurd (List.infix_nil.1 hwindow) h⟩
  | cons t tokens ih =>
    rw [countWindows, List.infix_cons_iff, ← ih, ← List.isPrefixOf_iff_prefix]
    split
    · rename_i hstarts
      exact ⟨fun _ => .inl hstarts, fun _ => by omega⟩
    · rename_i hstarts
      rw [Nat.zero_add]
      exact ⟨.inr, fun hor => hor.resolve_left hstarts⟩

/-! ### Spans -/

theorem mem_positionsOf {holds : String → Bool} {tokens : List String} {span : Nat × Nat} :
    span ∈ positionsOf holds tokens ↔
      ∃ t, tokens[span.1]? = some t ∧ holds t = true ∧ span.2 = span.1 + 1 := by
  simp only [positionsOf, List.mem_map, List.mem_filter, List.mem_zipIdx_iff_getElem?]
  constructor
  · rintro ⟨⟨t, i⟩, ⟨hget, ht⟩, rfl⟩
    exact ⟨t, hget, ht, rfl⟩
  · rintro ⟨t, hget, ht, hstop⟩
    exact ⟨(t, span.1), ⟨hget, ht⟩, Prod.ext rfl hstop.symm⟩

theorem pairwise_positionsOf (holds : String → Bool) (tokens : List String) :
    (positionsOf holds tokens).Pairwise fun a b => a.1 < b.1 := by
  have numbers : (tokens.zipIdx.map Prod.snd).Pairwise (· < ·) := by
    rw [List.zipIdx_map_snd]
    exact List.pairwise_lt_range' 1
  exact List.pairwise_map.2 ((List.pairwise_map.1 numbers).filter _)

/-- Without room between them, spans of single positions chain exactly if the next position has the
property of the next clause. -/
theorem chain_positionsOf {holds : String → Bool} {tokens : List String} {stop : Nat}
    {rest : List (List (Nat × Nat))} :
    (chain 0 stop (positionsOf holds tokens :: rest)).isSome ↔
      (∃ t, tokens[stop]? = some t ∧ holds t = true) ∧ (chain 0 (stop + 1) rest).isSome := by
  rw [chain]
  constructor
  · intro h
    split at h
    · cases h
    · rename_i first next hfind
      have hle : stop ≤ first := by simpa using List.find?_some hfind
      obtain ⟨t, hget, ht, hnext⟩ := mem_positionsOf.1 (List.mem_of_find?_eq_some hfind)
      dsimp only at h hget hnext
      split at h
      · obtain rfl : first = stop := by omega
        rw [hnext, Nat.sub_self] at h
        exact ⟨⟨t, hget, ht⟩, h⟩
      · cases h
  · rintro ⟨⟨t, hget, ht⟩, hrest⟩
    have here : (stop, stop + 1) ∈ positionsOf holds tokens := mem_positionsOf.2 ⟨t, hget, ht, rfl⟩
    have hfind : (positionsOf holds tokens).find? (fun x => decide (stop ≤ x.1)) =
        some (stop, stop + 1) := by
      obtain ⟨front, back, hsplit⟩ := List.append_of_mem here
      have sorted := pairwise_positionsOf holds tokens
      rw [hsplit] at sorted ⊢
      refine List.find?_eq_some_iff_append.2 ⟨by simp, front, back, rfl, fun x hx => ?_⟩
      have := (List.pairwise_append.1 sorted).2.2 x hx _ List.mem_cons_self
      simpa using this
    rw [hfind]
    dsimp only
    rw [Nat.sub_self, if_pos (Nat.le_refl 0)]
    exact hrest

/-- Without room between them, the spans of terms chain from a position exactly if the terms stand
there, and what follows chains from behind them. -/
theorem chain_terms {terms tokens : List String} {stop : Nat} {rest : List (List (Nat × Nat))} :
    (chain 0 stop (terms.map (fun t => positionsOf (· == t) tokens) ++ rest)).isSome ↔
      terms <+: tokens.drop stop ∧ (chain 0 (stop + terms.length) rest).isSome := by
  induction terms generalizing stop with
  | nil => simp
  | cons term terms ih =>
    rw [List.map_cons, List.cons_append, chain_positionsOf, ih, List.length_cons,
      Nat.add_right_comm stop 1, ← and_assoc]
    refine and_congr_left fun _ => ?_
    constructor
    · rintro ⟨⟨t, hget, ht⟩, hstarts⟩
      obtain ⟨hlt, hget⟩ := List.getElem?_eq_some_iff.1 hget
      rw [List.drop_eq_getElem_cons hlt, hget, beq_iff_eq.1 ht]
      exact (List.prefix_cons_inj term).2 hstarts
    · rintro ⟨back, hdrop⟩
      have hget : tokens[stop]? = some term := by
        rw [← List.head?_drop, ← hdrop]
        rfl
      refine ⟨⟨term, hget, beq_self_eq_true term⟩, back, ?_⟩
      rw [← List.tail_drop, ← hdrop]
      rfl

/-- The spans of the terms and of the unfinished word chain from a position exactly if they stand
there. -/
theorem chain_phrase {terms tokens : List String} {start : String} {stop : Nat} :
    (chain 0 stop (terms.map (fun t => positionsOf (· == t) tokens) ++
        [positionsOf (beginsWith · start) tokens])).isSome ↔
      ∃ back, tokens.drop stop = terms ++ back ∧
        ∃ word ∈ back.head?, beginsWith word start = true := by
  rw [chain_terms, chain_positionsOf]
  constructor
  · rintro ⟨⟨back, hdrop⟩, hword, -⟩
    refine ⟨back, hdrop.symm, ?_⟩
    rwa [← List.head?_drop, ← List.drop_drop, ← hdrop, List.drop_left] at hword
  · rintro ⟨back, hdrop, hword⟩
    refine ⟨⟨back, hdrop.symm⟩, ?_, rfl⟩
    rwa [← List.head?_drop, ← List.drop_drop, hdrop, List.drop_left]

/-- A nearness query without room reports a span at a position exactly if all clauses chain from
there. -/
theorem exists_mem_spanNear_iff {holds : String → Bool} {tokens : List String}
    {rest : List (List (Nat × Nat))} {first : Nat} :
    (∃ last, (first, last) ∈ (positionsOf holds tokens).filterMap fun (first, stop) =>
        (chain 0 stop rest).map fun last => (first, last)) ↔
      (chain 0 first (positionsOf holds tokens :: rest)).isSome := by
  rw [chain_positionsOf]
  constructor
  · rintro ⟨last, hspan⟩
    obtain ⟨⟨first', stop⟩, hmem, hchain⟩ := List.mem_filterMap.1 hspan
    obtain ⟨last', hlast, heq⟩ := Option.map_eq_some_iff.1 hchain
    obtain ⟨rfl, rfl⟩ := Prod.mk.inj heq
    obtain ⟨t, hget, ht, hstop⟩ := mem_positionsOf.1 hmem
    rw [show stop = first' + 1 from hstop] at hlast
    exact ⟨⟨t, hget, ht⟩, Option.isSome_of_eq_some hlast⟩
  · rintro ⟨⟨t, hget, ht⟩, hchain⟩
    obtain ⟨last, hlast⟩ := Option.isSome_iff_exists.1 hchain
    refine ⟨last, List.mem_filterMap.2 ⟨(first, first + 1), ?_, by simp [hlast]⟩⟩
    exact mem_positionsOf.2 ⟨t, hget, ht, rfl⟩

theorem spanNear_ne_nil_iff {holds : String → Bool} {tokens : List String}
    {rest : List (List (Nat × Nat))} :
    ((positionsOf holds tokens).filterMap fun (first, stop) =>
        (chain 0 stop rest).map fun last => (first, last)) ≠ [] ↔
      ∃ first, (chain 0 first (positionsOf holds tokens :: rest)).isSome := by
  simp only [← exists_mem_spanNear_iff, ne_eq, List.eq_nil_iff_forall_not_mem, Prod.forall]
  push Not
  rfl

theorem allSpans_phrase (d : StoredDocument) (field : String) (terms : List String)
    (start : String) :
    allSpans d (terms.map (.spanTerm field) ++ [.mask (.spanStart field start) field]) =
      terms.map (fun t => positionsOf (· == t) (d.tokens field)) ++
        [positionsOf (beginsWith · start) (d.tokens field)] := by
  induction terms with
  | nil =>
    rw [List.map_nil, List.map_nil, List.nil_append, allSpans, allSpans, spans, spans]
    rfl
  | cons t terms ih =>
    rw [List.map_cons, List.map_cons, List.cons_append, List.cons_append, allSpans, ih, spans]

/-- A phrase with an unfinished word has spans in the documents that hold it. -/
theorem spans_phraseStart_ne_nil_iff {d : StoredDocument} {field : String} {terms : List String}
    {start : String} :
    spans d (.phraseStart field terms start) ≠ [] ↔
      HoldsPhrase terms (some start) (d.tokens field) := by
  have chained : spans d (.phraseStart field terms start) ≠ [] ↔ ∃ first,
      (chain 0 first (terms.map (fun t => positionsOf (· == t) (d.tokens field)) ++
        [positionsOf (beginsWith · start) (d.tokens field)])).isSome := by
    rw [Query.phraseStart, spans, allSpans_phrase]
    cases terms with
    | nil => exact spanNear_ne_nil_iff
    | cons t terms => exact spanNear_ne_nil_iff
  simp only [chained, chain_phrase, HoldsPhrase, Option.mem_def, Option.some.injEq, forall_eq']
  constructor
  · rintro ⟨first, back, hdrop, hword⟩
    refine ⟨(d.tokens field).take first, back, ?_, hword⟩
    rw [List.append_assoc, ← hdrop, List.take_append_drop]
  · rintro ⟨front, back, htokens, hword⟩
    refine ⟨front.length, back, ?_, hword⟩
    rw [htokens, List.append_assoc, List.drop_left]

/-! ### Scores -/

variable {p : Partition} {d : StoredDocument}

theorem isSome_frequencyScore {n : Nat} : (frequencyScore n).isSome ↔ n ≠ 0 := by
  rw [frequencyScore]
  split
  · rename_i h
    exact ⟨fun hsome => absurd hsome (by decide), fun hne => absurd h hne⟩
  · rename_i h
    exact ⟨fun _ => h, fun _ => rfl⟩

theorem isSome_score_phrase {field : String} {terms : List String} :
    (p.score d (.phrase field terms)).isSome ↔
      terms ≠ [] ∧ HoldsPhrase terms none (d.tokens field) := by
  rw [score]
  split
  · rename_i h
    exact ⟨fun hsome => absurd hsome (by decide), fun hne => absurd (List.isEmpty_iff.1 h) hne.1⟩
  · rename_i h
    have hne : terms ≠ [] := fun hnil => h (List.isEmpty_iff.2 hnil)
    rw [Option.isSome_map, isSome_frequencyScore, countWindows_ne_zero_iff hne]
    constructor
    · rintro ⟨front, back, htokens⟩
      exact ⟨hne, front, back, htokens.symm, fun _ hstart => nomatch hstart⟩
    · rintro ⟨-, front, back, htokens, -⟩
      exact ⟨front, back, htokens.symm⟩

theorem isSome_score_phraseStart {field : String} {terms : List String} {start : String} :
    (p.score d (.phraseStart field terms start)).isSome ↔
      HoldsPhrase terms (some start) (d.tokens field) := by
  have frequency : p.score d (.phraseStart field terms start) =
      frequencyScore (spans d (.phraseStart field terms start)).length := by
    rw [Query.phraseStart, score]
    all_goals intros; contradiction
  rw [frequency, isSome_frequencyScore, ne_eq, List.length_eq_zero_iff]
  exact spans_phraseStart_ne_nil_iff

/-- Of clauses that need not match, a tally counts those that do. -/
theorem tally_should (t : Tally) (queries : List Query) :
    ∃ u, p.tally d t (queries.map fun q => (.should, q)) = some u ∧
      u.matched = t.matched + queries.countP fun q => (p.score d q).isSome := by
  induction queries generalizing t with
  | nil => exact ⟨t, by rw [List.map_nil, tally], rfl⟩
  | cons q queries ih =>
    rw [List.map_cons, tally]
    cases hscore : p.score d q with
    | none =>
      obtain ⟨u, htally, hmatched⟩ := ih t
      refine ⟨u, htally, ?_⟩
      rw [List.countP_cons_of_neg (by simp [hscore]), hmatched]
    | some x =>
      obtain ⟨u, htally, hmatched⟩ := ih ⟨t.total.add x, t.matched + 1⟩
      refine ⟨u, htally, ?_⟩
      rw [List.countP_cons_of_pos (by simp [hscore]), hmatched]
      show t.matched + 1 + _ = _
      omega

/-- Of clauses that need not match, at least one has to. -/
theorem isSome_score_any {queries : List Query} :
    (p.score d (.boolean (queries.map fun q => (.should, q)) 1)).isSome ↔
      ∃ q ∈ queries, (p.score d q).isSome := by
  rw [score]
  cases queries with
  | nil => simp
  | cons q queries =>
    obtain ⟨u, htally, hmatched⟩ := tally_should (p := p) (d := d) ⟨Binary32.zero, 0⟩ (q :: queries)
    rw [if_neg (by simp), htally, Option.bind_some, ← List.countP_pos_iff]
    rw [Nat.zero_add] at hmatched
    rw [← hmatched]
    split
    · rename_i h
      exact ⟨fun _ => h, fun _ => rfl⟩
    · rename_i h
      exact ⟨fun hsome => absurd hsome (by decide), fun hlt => absurd hlt h⟩

/-- The query for a phrase finds the documents that hold it in one of the fields. -/
theorem isSome_score_anyPhrase {fields terms : List String} {unfinished : Option String} :
    (p.score d (.anyPhrase fields terms unfinished)).isSome ↔ (terms ≠ [] ∨ unfinished ≠ none) ∧
      ∃ field ∈ fields, HoldsPhrase terms unfinished (d.tokens field) := by
  cases unfinished with
  | none =>
    have clauses : Query.anyPhrase fields terms none =
        .boolean ((fields.map (.phrase · terms)).map fun q => (.should, q)) 1 := by
      rw [List.map_map]
      rfl
    rw [clauses, isSome_score_any]
    constructor
    · rintro ⟨q, hq, hscore⟩
      obtain ⟨field, hfield, rfl⟩ := List.mem_map.1 hq
      obtain ⟨hne, hholds⟩ := isSome_score_phrase.1 hscore
      exact ⟨.inl hne, field, hfield, hholds⟩
    · rintro ⟨hwanted, field, hfield, hholds⟩
      exact ⟨_, List.mem_map_of_mem hfield,
        isSome_score_phrase.2 ⟨hwanted.resolve_right fun h => h rfl, hholds⟩⟩
  | some start =>
    have clauses : Query.anyPhrase fields terms (some start) =
        .boolean ((fields.map (.phraseStart · terms start)).map fun q => (.should, q)) 1 := by
      rw [List.map_map]
      rfl
    rw [clauses, isSome_score_any]
    constructor
    · rintro ⟨q, hq, hscore⟩
      obtain ⟨field, hfield, rfl⟩ := List.mem_map.1 hq
      exact ⟨.inr (Option.some_ne_none start), field, hfield, isSome_score_phraseStart.1 hscore⟩
    · rintro ⟨-, field, hfield, hholds⟩
      exact ⟨_, List.mem_map_of_mem hfield, isSome_score_phraseStart.2 hholds⟩

end Partition

/-! ### Words -/

theorem tokenTexts_eq (text : String) :
    tokenTexts text = ((segments text.toList).filter isWord).map tokenText := by
  have onward (offset : Nat) (l : List (List Char)) :
      (tokensFrom offset l).map (·.text) = (l.filter isWord).map tokenText := by
    induction l generalizing offset with
    | nil => rfl
    | cons s l ih =>
      rw [tokensFrom, List.filter_cons]
      split
      · rw [List.map_cons, List.map_cons, ih]
      · exact ih _
  exact onward 0 _

theorem matchWord_eq_unfinished_iff {wanted : List String} {unfinished : Option String}
    {word : List Char} {start : String} :
    matchWord wanted unfinished word = .unfinished start ↔
      start ∈ unfinished ∧ tokenText word ∉ wanted ∧ beginsWith (tokenText word) start = true := by
  unfold matchWord
  dsimp only
  split
  · rename_i h
    simp [List.contains_iff_mem.1 h]
  · rename_i h
    rw [List.contains_iff_mem] at h
    cases unfinished with
    | none => simp
    | some typed =>
      dsimp only
      split
      · rename_i hbegins
        simp only [Match.unfinished.injEq, Option.mem_def, Option.some.injEq]
        exact ⟨fun heq => ⟨heq, h, heq ▸ hbegins⟩, fun hand => hand.1⟩
      · rename_i hbegins
        simp only [Option.mem_def, Option.some.injEq]
        exact ⟨nofun, fun hand => absurd (hand.1 ▸ hand.2.2) hbegins⟩

/-- A text satisfies what was typed if it holds the words. -/
theorem satisfies_iff {wanted : List String} {unfinished : Option String} {text : String} :
    satisfies wanted unfinished text = true ↔ HoldsWords wanted unfinished (tokenTexts text) := by
  rw [HoldsWords, tokenTexts_eq, satisfies, Bool.and_eq_true, List.all_eq_true, Option.all_eq_true]
  refine and_congr (forall₂_congr fun t _ => List.contains_iff_mem)
    (forall₂_congr fun start h => ?_)
  rw [List.contains_iff_mem, List.mem_map]
  constructor
  · rintro ⟨word, hword, hmatch⟩
    obtain ⟨-, hnot, hbegins⟩ := matchWord_eq_unfinished_iff.1 hmatch
    exact ⟨_, List.mem_map_of_mem hword, hnot, hbegins⟩
  · rintro ⟨token, htoken, hnot, hbegins⟩
    obtain ⟨word, hword, rfl⟩ := List.mem_map.1 htoken
    exact ⟨word, hword, matchWord_eq_unfinished_iff.2 ⟨h, hnot, hbegins⟩⟩

end ResumableQuery.Search
