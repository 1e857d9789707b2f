import ResumableQuery.Proofs.Search.PartitionHistory

/-!
# Names of indexed fields

The names of the fields of a partition are those of its postings.  A field in which a live document
has a token is always among them.  A field without tokens is so, too, from when a document with the
field is added until a document with the field is taken away, be it another one (`Retained`); so
partitions of the same live documents can differ in their field names (`fieldNames_applyAll`,
`fieldNames_without_tokens`).
-/

namespace ResumableQuery.Search.Partition

variable {p : Partition} {pk : Tuple} {field : String} {texts : List (String × String)}

/-- A live document has a token in the field. -/
def Carries (p : Partition) (field : String) : Prop := ∃ d, p.Holds d ∧ d.tokens field ≠ []

/-- A live document of the primary key has the field, perhaps without tokens. -/
def HoldsFieldOf (p : Partition) (pk : Tuple) (field : String) : Prop :=
  ∃ d, p.Holds d ∧ d.primaryKey = pk ∧ d.Has field

/-! ### One change -/

theorem Indexed.carries_iff (h : p.Indexed) :
    p.Carries field ↔ ∃ term n, n ∈ p.postings.documents field term := by
  constructor
  · rintro ⟨d, ⟨n, hd⟩, htokens⟩
    obtain ⟨term, hterm⟩ := List.exists_mem_of_ne_nil _ htokens
    exact ⟨term, n, h.mem_documents_iff.2 ⟨d, hd, hterm⟩⟩
  · rintro ⟨term, n, hn⟩
    obtain ⟨d, hd, hterm⟩ := h.mem_documents_iff.1 hn
    exact ⟨d, ⟨n, hd⟩, List.ne_nil_of_mem hterm⟩

theorem Indexed.hasField_of_carries (h : p.Indexed) (hcarries : p.Carries field) :
    p.postings.HasField field := by
  obtain ⟨term, n, hn⟩ := h.carries_iff.1 hcarries
  exact .of_mem_documents hn

theorem Consistent.carries_of_delete (h : p.Consistent) (hcarries : (p.delete pk).1.Carries field) :
    p.Carries field := by
  obtain ⟨d, hd, htokens⟩ := hcarries
  exact ⟨d, (h.holds_delete.1 hd).1, htokens⟩

/-- Taking a document away leaves of its fields those that carry tokens still, and all others. -/
theorem Indexed.hasField_delete (h : p.Indexed) :
    (p.delete pk).1.postings.HasField field ↔
      (p.delete pk).1.Carries field ∨ p.postings.HasField field ∧ ¬p.HoldsFieldOf pk field := by
  have carried (hcarries : (p.delete pk).1.Carries field) : p.postings.HasField field :=
    h.hasField_of_carries (h.consistent.carries_of_delete hcarries)
  cases hfind : Ordered.find? pk.pack p.byPrimaryKey with
  | none =>
    have hno : ¬p.HoldsFieldOf pk field := by
      rintro ⟨d, hd, hpk, -⟩
      exact h.consistent.primaryKey_ne hfind hd hpk
    rw [and_iff_left hno, or_iff_right_of_imp carried, delete_of_not_registered hfind]
  | some n =>
    obtain ⟨d, hd, hpk⟩ := h.consistent.registered_iff.1 hfind
    have hpostings := postings_delete hfind hd
    have holds_iff : p.HoldsFieldOf pk field ↔ d.Has field := by
      refine ⟨?_, fun hfield => ⟨d, ⟨n, hd⟩, hpk, hfield⟩⟩
      rintro ⟨d', ⟨n', hd'⟩, hpk', hfield⟩
      obtain ⟨rfl, rfl⟩ := Prod.mk.inj
        (h.consistent.document_unique hd hd' (hpk'.trans hpk.symm))
      exact hfield
    rw [holds_iff, StoredDocument.Has, (h.delete pk).carries_iff, hpostings,
      Postings.hasField_removeFields h.wellFormed, ← hpostings, ← (h.delete pk).carries_iff]
    by_cases hfield : field ∈ d.fields.map (·.1)
    · rw [if_pos hfield, or_iff_left fun hleft => hleft.2 hfield]
    · rw [if_neg hfield, and_iff_left hfield, or_iff_right_of_imp carried]

theorem hasField_add :
    (p.add pk texts).1.postings.HasField field ↔
      field ∈ texts.map (·.1) ∨ (p.delete pk).1.postings.HasField field :=
  Postings.hasField_addFields.trans (or_congr_left StoredDocument.has_ofTexts)

theorem Consistent.carries_add (h : p.Consistent) :
    (p.add pk texts).1.Carries field ↔
      (StoredDocument.ofTexts pk texts).tokens field ≠ [] ∨ (p.delete pk).1.Carries field := by
  simp only [Carries, h.holds_add, h.holds_delete, or_and_right, exists_or, exists_eq_left]

/-- What carries a field is not taken away with a document that does not have it. -/
theorem Consistent.carries_delete (h : p.Consistent) (hno : ¬p.HoldsFieldOf pk field)
    (hcarries : p.Carries field) : (p.delete pk).1.Carries field := by
  obtain ⟨d, hd, htokens⟩ := hcarries
  exact ⟨d, h.holds_delete.2 ⟨hd, fun hpk =>
    hno ⟨d, hd, hpk, StoredDocument.has_of_tokens_ne_nil htokens⟩⟩, htokens⟩

/-! ### Histories -/

/-- The change takes away a document that has the field, given the changes before it. -/
def TakesAway (changes : List Change) (c : Change) (field : String) : Prop :=
  ∃ n d, Remains changes n d ∧ d.primaryKey = c.primaryKey ∧ d.Has field

/-- A document with the field was added, and none was taken away since. -/
def Retained (changes : List Change) (field : String) : Prop :=
  ∃ before primaryKey texts after, changes = before ++ .add primaryKey texts :: after ∧
    field ∈ texts.map (·.1) ∧
    ∀ between c, between ++ [c] <+: after →
      ¬TakesAway (before ++ .add primaryKey texts :: between) c field

section Retained

variable {changes : List Change} {c : Change}

theorem not_retained_nil : ¬Retained [] field := by
  rintro ⟨before, pk, texts, after, heq, -⟩
  exact List.append_ne_nil_of_right_ne_nil _ (List.cons_ne_nil _ _) heq.symm

theorem retained_concat :
    Retained (changes ++ [c]) field ↔
      (∃ primaryKey texts, c = .add primaryKey texts ∧ field ∈ texts.map (·.1)) ∨
      Retained changes field ∧ ¬TakesAway changes c field := by
  constructor
  · rintro ⟨before, pk, texts, after, heq, hfield, hkept⟩
    rcases concat_eq_append_cons.1 heq with ⟨-, hc, -⟩ | ⟨between, rfl, rfl⟩
    · exact .inl ⟨pk, texts, hc.symm, hfield⟩
    · exact .inr ⟨⟨before, pk, texts, between, rfl, hfield, fun between' c' hbetween =>
        hkept between' c' (hbetween.trans (List.prefix_append _ _))⟩,
        hkept between c (List.prefix_refl _)⟩
  · rintro (⟨pk, texts, rfl, hfield⟩ | ⟨⟨before, pk, texts, after, rfl, hfield, hkept⟩, htakes⟩)
    · refine ⟨changes, pk, texts, [], rfl, hfield, fun between c hbetween => ?_⟩
      exact absurd (List.prefix_nil.1 hbetween) (List.concat_ne_nil _ _)
    · refine ⟨before, pk, texts, after ++ [c], concat_eq_append_cons.2 (.inr ⟨after, rfl, rfl⟩),
        hfield, fun between c' hbetween => ?_⟩
      rcases List.prefix_concat_iff.1 hbetween with heq | hbetween
      · obtain ⟨rfl, hc⟩ := List.append_inj' heq rfl
        obtain rfl := List.singleton_inj.1 hc
        exact htakes
      · exact hkept between c' hbetween

/-- A field that is retained is one of a live document. -/
theorem exists_remains_of_retained (h : Retained changes field) :
    ∃ n d, Remains changes n d ∧ d.Has field := by
  induction changes using List.reverseRecOn with
  | nil => exact absurd h not_retained_nil
  | append_singleton changes c ih =>
    rcases retained_concat.1 h with ⟨pk, texts, rfl, hfield⟩ | ⟨h, htakes⟩
    · exact ⟨_, _, remains_concat.2 (.inl ⟨pk, texts, rfl, rfl, rfl⟩),
        StoredDocument.has_ofTexts.2 hfield⟩
    · obtain ⟨n, d, hremains, hfield⟩ := ih h
      refine ⟨n, d, remains_concat.2 (.inr ⟨hremains, fun hpk => ?_⟩), hfield⟩
      exact htakes ⟨n, d, hremains, hpk, hfield⟩

end Retained

section FromEmpty

variable (name : String) (groupingKey : Tuple) (changes : List Change)

theorem takesAway_iff (c : Change) :
    TakesAway changes c field ↔
      ((empty name groupingKey).applyAll changes).HoldsFieldOf c.primaryKey field := by
  simp only [TakesAway, HoldsFieldOf, Holds, document?_applyAll]
  constructor
  · rintro ⟨n, d, hd, h⟩
    exact ⟨d, ⟨n, hd⟩, h⟩
  · rintro ⟨d, ⟨n, hd⟩, h⟩
    exact ⟨n, d, hd, h⟩

/-- The postings have the fields that live documents carry and those that are retained. -/
theorem hasField_applyAll (field : String) :
    ((empty name groupingKey).applyAll changes).postings.HasField field ↔
      ((empty name groupingKey).applyAll changes).Carries field ∨ Retained changes field := by
  induction changes using List.reverseRecOn with
  | nil =>
    refine iff_of_false nofun ?_
    rintro (⟨d, hd, -⟩ | h)
    · exact not_holds_empty hd
    · exact not_retained_nil h
  | append_singleton changes c ih =>
    have indexed := indexed_applyAll name groupingKey changes
    have consistent := indexed.consistent
    rw [applyAll_concat, retained_concat, takesAway_iff name groupingKey]
    -- What is left of the fields once the document of the primary key is gone.
    have left (pk : Tuple) :
        (((empty name groupingKey).applyAll changes).delete pk).1.postings.HasField field ↔
          (((empty name groupingKey).applyAll changes).delete pk).1.Carries field ∨
            Retained changes field ∧
              ¬((empty name groupingKey).applyAll changes).HoldsFieldOf pk field := by
      rw [indexed.hasField_delete, ih, or_and_right, ← or_assoc]
      exact or_congr_left (or_iff_left_of_imp fun h => consistent.carries_delete h.2 h.1)
    cases c with
    | delete pk =>
      refine (left pk).trans (or_congr_right (or_iff_right ?_).symm)
      rintro ⟨pk', texts, hc, -⟩
      cases hc
    | add pk texts =>
      have added : (∃ pk' texts', Change.add pk texts = .add pk' texts' ∧
          field ∈ texts'.map (·.1)) ↔ field ∈ texts.map (·.1) := by
        simp
      have named : (StoredDocument.ofTexts pk texts).tokens field ≠ [] →
          field ∈ texts.map (·.1) := fun htokens =>
        StoredDocument.has_ofTexts.1 (StoredDocument.has_of_tokens_ne_nil htokens)
      rw [apply, hasField_add, left, consistent.carries_add, added, Change.primaryKey]
      tauto

end FromEmpty

/-- After any changes that put a document in, the names of the fields are in order, and there are two
kinds of them: fields in which a live document has a token, and fields that a live document has
without tokens, as long as no document that has the field was taken away since one was added. -/
theorem fieldNames_applyAll (name : String) (groupingKey : Tuple) (changes : List Change) :
    let p := (empty name groupingKey).applyAll changes
    ∃ names, p.fieldNames = (if additions changes = 0 then .error p.notFound else .ok names) ∧
      Ordered.Increasing names ∧
      ∀ field, field ∈ names ↔ p.Carries field ∨
        Retained changes field ∧ ∃ d, p.Holds d ∧ d.Has field ∧ d.tokens field = [] := by
  intro p
  have indexed : p.Indexed := indexed_applyAll name groupingKey changes
  refine ⟨p.postings.map (·.1), ?_, List.pairwise_map.2 (indexed.wellFormed.sorted.imp id),
    fun field => ?_⟩
  · rw [fieldNames, ← length_documents_applyAll name groupingKey changes]
    exact if_congr (by rw [List.isEmpty_iff, List.length_eq_zero_iff]) rfl rfl
  · rw [indexed.wellFormed.mem_iff_hasField, hasField_applyAll]
    refine ⟨fun h => ?_, fun h => h.imp_right And.left⟩
    rcases h with h | h
    · exact .inl h
    · obtain ⟨n, d, hremains, hfield⟩ := exists_remains_of_retained h
      have held : p.Holds d := ⟨n, (document?_applyAll name groupingKey changes).2 hremains⟩
      by_cases htokens : d.tokens field = []
      · exact .inr ⟨h, d, held, hfield, htokens⟩
      · exact .inl ⟨d, held, htokens⟩

/-- All that is live is a document with a field without tokens: the field is named until another
document with the field is added and deleted. -/
theorem fieldNames_without_tokens :
    let before := (empty "notes" []).applyAll [.add [.int 2] [("title", "")]]
    let after := before.applyAll [.add [.int 1] [("title", "")], .delete [.int 1]]
    before.live = after.live ∧ (∀ field, ¬before.Carries field) ∧
      before.fieldNames = .ok ["title"] ∧ after.fieldNames = .ok [] := by
  intro before after
  have live_eq : before.live = [(0, ⟨[.int 2], [("title", [])]⟩)] := rfl
  refine ⟨rfl, ?_, rfl, rfl⟩
  rintro field ⟨d, ⟨n, hd⟩, htokens⟩
  rw [← mem_live, live_eq, List.mem_singleton] at hd
  obtain ⟨-, rfl⟩ := Prod.mk.inj hd
  obtain rfl : field = "title" := List.mem_singleton.1 (StoredDocument.has_of_tokens_ne_nil htokens)
  exact htokens rfl

end ResumableQuery.Search.Partition
