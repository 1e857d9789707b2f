import ResumableQuery.Proofs.Search.Partition
import ResumableQuery.Proofs.Search.Phrases

/-!
# Words in the index and in a text

The index and the check of a text look for words in their own ways.  The index asks for each term
and for the unfinished word on its own (`HoldsTerms`), while the check gives each token of a text
one role, that of a term first (`HoldsWords`).  So what is checked was found, but a text may be
found and dropped: that happens where only terms begin with the unfinished word
(`found_dropped_iff`).
-/

namespace ResumableQuery.Search

/-- Every term is among the tokens, and if there is an unfinished word, a token begins with it, be
it one of the terms or not. -/
def HoldsTerms (terms : List String) (unfinished : Option String) (tokens : List String) : Prop :=
  (∀ t ∈ terms, t ∈ tokens) ∧
    ∀ start ∈ unfinished, ∃ word ∈ tokens, beginsWith word start = true

theorem HoldsWords.holdsTerms {terms tokens : List String} {unfinished : Option String}
    (h : HoldsWords terms unfinished tokens) : HoldsTerms terms unfinished tokens := by
  refine ⟨h.1, fun start hstart => ?_⟩
  obtain ⟨word, hword, -, hbegins⟩ := h.2 start hstart
  exact ⟨word, hword, hbegins⟩

/-- Terms and an unfinished word that are held are held apart unless only terms begin with the
unfinished word. -/
theorem HoldsTerms.not_holdsWords_iff {terms tokens : List String} {unfinished : Option String}
    (h : HoldsTerms terms unfinished tokens) : ¬HoldsWords terms unfinished tokens ↔
      ∃ start ∈ unfinished, ∀ word ∈ tokens, beginsWith word start = true → word ∈ terms := by
  constructor
  · intro hnot
    by_contra hall
    refine hnot ⟨h.1, fun start hstart => ?_⟩
    by_contra hnone
    refine hall ⟨start, hstart, fun word hword hbegins => ?_⟩
    by_contra hterm
    exact hnone ⟨word, hword, hterm, hbegins⟩
  · rintro ⟨start, hstart, honly⟩ hholds
    obtain ⟨word, hword, hterm, hbegins⟩ := hholds.2 start hstart
    exact hterm (honly word hword hbegins)

namespace Partition

variable {p : Partition} {d : StoredDocument} {field : String}

theorem isSome_score_term {t : String} :
    (p.score d (.term field t)).isSome ↔ t ∈ d.tokens field := by
  rw [score, Option.isSome_map, isSome_frequencyScore, ← Nat.pos_iff_ne_zero, List.count_pos_iff]

theorem isSome_score_startOf {start : String} : (p.score d (.startOf field start)).isSome ↔
    ∃ word ∈ d.tokens field, beginsWith word start = true := by
  rw [score, ← List.any_eq_true]
  split <;> simp_all

/-- Of clauses that have to match, all do if there is a tally. -/
theorem isSome_tally_must (t : Tally) (queries : List Query) :
    (p.tally d t (queries.map fun q => (.must, q))).isSome ↔
      ∀ q ∈ queries, (p.score d q).isSome := by
  induction queries generalizing t with
  | nil => simp [tally]
  | cons q queries ih =>
    rw [List.map_cons, tally]
    cases hscore : p.score d q with
    | none => simp [Tally.add, hscore]
    | some x => simp [Tally.add, hscore, ih]

/-- Where all clauses have to match, they do. -/
theorem isSome_score_every {queries : List Query} :
    (p.score d (.boolean (queries.map fun q => (.must, q)) 0)).isSome ↔
      queries ≠ [] ∧ ∀ q ∈ queries, (p.score d q).isSome := by
  rw [score, ← isSome_tally_must ⟨Binary32.zero, 0⟩]
  cases queries with
  | nil => simp
  | cons q queries => simp [Option.isSome_bind]

/-- The query for words finds the documents that hold them in one of the fields. -/
theorem isSome_score_allTerms {fields terms : List String} {unfinished : Option String} :
    (p.score d (.allTerms fields terms unfinished)).isSome ↔ (terms ≠ [] ∨ unfinished ≠ none) ∧
      ∃ field ∈ fields, HoldsTerms terms unfinished (d.tokens field) := by
  let wanted (field : String) : List Query :=
    terms.map (.term field) ++ (unfinished.map (.startOf field)).toList
  have clauses : Query.allTerms fields terms unfinished =
      .boolean ((fields.map fun field =>
        .boolean ((wanted field).map fun q => (.must, q)) 0).map fun q => (.should, q)) 1 := by
    cases unfinished <;> simp [Query.allTerms, wanted, Function.comp_def]
  have nonempty (field : String) : wanted field ≠ [] ↔ terms ≠ [] ∨ unfinished ≠ none := by
    cases unfinished <;> simp [wanted]
  have held (field : String) : (∀ q ∈ wanted field, (p.score d q).isSome) ↔
      HoldsTerms terms unfinished (d.tokens field) := by
    simp only [wanted, List.forall_mem_append, List.forall_mem_map, isSome_score_term, HoldsTerms]
    cases unfinished <;> simp [isSome_score_startOf]
  rw [clauses, isSome_score_any]
  simp only [List.mem_map, exists_exists_and_eq_and, isSome_score_every, nonempty, held]
  constructor
  · rintro ⟨field, hfield, hwanted, hholds⟩
    exact ⟨hwanted, field, hfield, hholds⟩
  · rintro ⟨hwanted, field, hfield, hholds⟩
    exact ⟨field, hfield, hwanted, hholds⟩

end Partition

theorem isSome_searchAll {text : String} {terms : List String} {unfinished : Option String}
    {highlight : Bool} : (searchAll text terms unfinished highlight).isSome ↔
      HoldsWords terms unfinished (tokenTexts text) := by
  rw [searchAll, ← satisfies_iff]
  split
  · split <;> simp_all
  · simp_all

theorem tokens_ofTexts_singleton (primaryKey : Tuple) (field text : String) :
    (StoredDocument.ofTexts primaryKey [(field, text)]).tokens field = tokenTexts text := by
  simp [StoredDocument.tokens_ofTexts]

/-- The index finds a document with a single text if the text holds the terms and has a token that
begins with the unfinished word; the check accepts the text if that token is none of the terms.  So
whatever is accepted is found, but a text that is found is dropped exactly if all of its tokens that
begin with the unfinished word are among the terms. -/
theorem found_dropped_iff (p : Partition) (primaryKey : Tuple) (field text : String)
    {terms : List String} {unfinished : Option String} (wanted : terms ≠ [] ∨ unfinished ≠ none)
    (highlight : Bool) :
    let found := (p.score (.ofTexts primaryKey [(field, text)])
      (.allTerms [field] terms unfinished)).isSome
    let accepted := (searchAll text terms unfinished highlight).isSome
    (found ↔ HoldsTerms terms unfinished (tokenTexts text)) ∧
      (accepted ↔ HoldsWords terms unfinished (tokenTexts text)) ∧
      (accepted → found) ∧
      (found ∧ ¬accepted ↔ HoldsTerms terms unfinished (tokenTexts text) ∧
        ∃ start ∈ unfinished, ∀ word ∈ tokenTexts text,
          beginsWith word start = true → word ∈ terms) := by
  intro found accepted
  have hfound : found ↔ HoldsTerms terms unfinished (tokenTexts text) := by
    rw [Partition.isSome_score_allTerms, and_iff_right wanted]
    simp [tokens_ofTexts_singleton]
  have haccepted : accepted ↔ HoldsWords terms unfinished (tokenTexts text) := isSome_searchAll
  refine ⟨hfound, haccepted, ?_, ?_⟩
  · rw [hfound, haccepted]
    exact HoldsWords.holdsTerms
  · rw [hfound, haccepted]
    exact and_congr_right HoldsTerms.not_holdsWords_iff

/-- The text has the term and a further token that begins with the unfinished word. -/
theorem found_dropped_iff_sample :
    (["fox"] ≠ [] ∨ some "fo" ≠ none) ∧
      (searchAll "A fox for food" ["fox"] (some "fo") false).isSome ∧
      ((Partition.empty "notes" []).score (.ofTexts [.int 1] [("body", "A fox for food")])
        (.allTerms ["body"] ["fox"] (some "fo"))).isSome := by
  have wanted : ["fox"] ≠ [] ∨ some "fo" ≠ none := .inl (by simp)
  obtain ⟨-, -, found_of_accepted, -⟩ := found_dropped_iff (Partition.empty "notes" []) [.int 1]
    "body" "A fox for food" wanted false
  have accepted : (searchAll "A fox for food" ["fox"] (some "fo") false).isSome := by
    decide +kernel
  exact ⟨wanted, accepted, found_of_accepted accepted⟩

/-- The only token is the term and begins with the unfinished word as well. -/
theorem found_but_dropped :
    HoldsTerms ["fox"] (some "fo") (tokenTexts "fox") ∧
      ((Partition.empty "notes" []).score (.ofTexts [.int 1] [("body", "fox")])
        (.allTerms ["body"] ["fox"] (some "fo"))).isSome ∧
      searchAll "fox" ["fox"] (some "fo") false = none := by
  have tokens : tokenTexts "fox" = ["fox"] := by decide +kernel
  refine ⟨⟨by simp [tokens], fun start hstart => ?_⟩, by decide +kernel, by decide +kernel⟩
  obtain rfl := Option.some.inj hstart
  exact ⟨"fox", by simp [tokens], by decide⟩

end ResumableQuery.Search
