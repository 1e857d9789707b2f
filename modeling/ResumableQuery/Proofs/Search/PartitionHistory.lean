import Mathlib.Data.List.Induction
import ResumableQuery.Proofs.Search.Partition

/-!
# A partition is an index of its live documents

Documents are added to a partition and deleted from it.  Every addition gets a number of its own, and
the document that it put in is live as long as no later change is about its primary key (`Remains`).
Whatever the changes were, the postings list exactly the live documents for the terms that they
have, so the terms of a field with their counts, and the weight of a term, are those of the live
documents (`Partition.lists_live_documents`).

`Indexed` is the invariant: each change carries over what is registered for primary keys and what is
listed for terms from the live documents before it to those after it.
-/

namespace ResumableQuery.Search

namespace StoredDocument

/-- The document has the field, perhaps without tokens. -/
def Has (d : StoredDocument) (field : String) : Prop := field ∈ d.fields.map (·.1)

variable {d : StoredDocument} {field t : String}

theorem sorted_ofTexts (primaryKey : Tuple) (texts : List (String × String)) :
    Ordered.Sorted (ofTexts primaryKey texts).fields := by
  have onto (fields : List (String × List String)) (h : Ordered.Sorted fields) :
      Ordered.Sorted (texts.foldl (fun fields t => Ordered.insert t.1
        ((Ordered.find? t.1 fields).getD [] ++ tokenTexts t.2) fields) fields) := by
    induction texts generalizing fields with
    | nil => exact h
    | cons t texts ih => exact ih _ (h.insert _ _)
  exact onto [] Ordered.sorted_nil

/-- The fields of a document of some texts are those that the texts are named for. -/
theorem has_ofTexts {primaryKey : Tuple} {texts : List (String × String)} :
    (ofTexts primaryKey texts).Has field ↔ field ∈ texts.map (·.1) := by
  have onto (fields : List (String × List String)) :
      (Ordered.find? field (texts.foldl (fun fields t => Ordered.insert t.1
        ((Ordered.find? t.1 fields).getD [] ++ tokenTexts t.2) fields) fields)).isSome = true ↔
        field ∈ texts.map (·.1) ∨ (Ordered.find? field fields).isSome = true := by
    induction texts generalizing fields with
    | nil => simp
    | cons t texts ih =>
      rw [List.foldl_cons, ih, List.map_cons, List.mem_cons]
      by_cases ht : field = t.1
      · simp [ht, Ordered.find?_insert_self]
      · simp [ht, Ordered.find?_insert_of_ne ht]
  rw [Has, (sorted_ofTexts _ _).mem_keys_iff]
  exact (onto []).trans (by simp [Ordered.find?])

theorem mem_tokens_iff (h : Ordered.Sorted d.fields) :
    t ∈ d.tokens field ↔ ∃ e ∈ d.fields, field = e.1 ∧ t ∈ e.2 := by
  rw [tokens]
  constructor
  · intro ht
    cases hfind : Ordered.find? field d.fields with
    | none =>
      rw [hfind] at ht
      cases ht
    | some terms =>
      rw [hfind] at ht
      exact ⟨_, Ordered.mem_of_find?_eq_some hfind, rfl, ht⟩
  · rintro ⟨e, he, rfl, ht⟩
    rw [h.find?_of_mem he]
    exact ht

theorem has_of_tokens_ne_nil (h : d.tokens field ≠ []) : d.Has field := by
  rw [tokens] at h
  cases hfind : Ordered.find? field d.fields with
  | none => exact absurd (by rw [hfind]; rfl) h
  | some terms => exact List.mem_map.2 ⟨_, Ordered.mem_of_find?_eq_some hfind, rfl⟩

end StoredDocument

namespace Partition

variable {p : Partition} {pk : Tuple} {n : Nat} {d : StoredDocument}
  {texts : List (String × String)} {field term : String}

/-! ### Postings of the live documents -/

/-- The postings list the live documents for the terms of their fields, and nothing else. -/
structure Indexed (p : Partition) : Prop where
  consistent : p.Consistent
  wellFormed : p.postings.WellFormed
  sorted_fields : ∀ {n d}, p.document? n = some d → Ordered.Sorted d.fields
  mem_documents_iff : ∀ {field term n}, n ∈ p.postings.documents field term ↔
    ∃ d, p.document? n = some d ∧ term ∈ d.tokens field

theorem indexed_empty (name : String) (groupingKey : Tuple) : (empty name groupingKey).Indexed where
  consistent := consistent_empty name groupingKey
  wellFormed := Postings.wellFormed_nil
  sorted_fields hd := nomatch hd
  mem_documents_iff := ⟨nofun, fun ⟨_, hd, _⟩ => nomatch hd⟩

theorem Indexed.delete (h : p.Indexed) (pk : Tuple) : (p.delete pk).1.Indexed := by
  cases hfind : Ordered.find? pk.pack p.byPrimaryKey with
  | none =>
    rw [delete_of_not_registered hfind]
    exact h
  | some n =>
    obtain ⟨d, hd, -⟩ := h.consistent.registered_iff.1 hfind
    have hpostings := postings_delete hfind hd
    have document?_eq (m : Nat) :
        (p.delete pk).1.document? m = if m = n then none else p.document? m := by
      rw [h.consistent.document?_delete, hfind]
      exact if_congr (by rw [Option.some.injEq, eq_comm]) rfl rfl
    refine ⟨h.consistent.delete pk, ?_, fun {m e} he => ?_, fun {field term m} => ?_⟩
    · rw [hpostings]
      exact Postings.wellFormed_removeFields h.wellFormed n d.fields
    · rw [document?_eq] at he
      split at he
      · cases he
      · exact h.sorted_fields he
    · rw [hpostings, Postings.mem_documents_removeFields h.wellFormed, h.mem_documents_iff,
        ← StoredDocument.mem_tokens_iff (h.sorted_fields hd), document?_eq]
      by_cases hm : m = n
      · rw [if_pos hm, hm, hd]
        simp
      · rw [if_neg hm]
        simp [hm]

theorem Indexed.add (h : p.Indexed) (pk : Tuple) (texts : List (String × String)) :
    (p.add pk texts).1.Indexed := by
  have hq := h.delete pk
  have hpostings : (p.add pk texts).1.postings = (p.delete pk).1.postings.addFields
      (p.delete pk).1.documents.length (StoredDocument.ofTexts pk texts).fields := rfl
  refine ⟨h.consistent.add pk texts, ?_, fun {m e} he => ?_, fun {field term m} => ?_⟩
  · rw [hpostings]
    exact Postings.wellFormed_addFields hq.wellFormed _ _
  · rw [document?_add] at he
    split at he
    · obtain rfl := Option.some.inj he
      exact StoredDocument.sorted_ofTexts pk texts
    · exact hq.sorted_fields he
  · rw [hpostings, Postings.mem_documents_addFields, hq.mem_documents_iff,
      ← StoredDocument.mem_tokens_iff (StoredDocument.sorted_ofTexts pk texts), document?_add]
    by_cases hm : m = (p.delete pk).1.documents.length
    · have gone : ¬∃ e, (p.delete pk).1.document? m = some e ∧ term ∈ e.tokens field :=
        fun ⟨e, he, _⟩ => absurd (lt_length_of_document? he) (by omega)
      rw [if_pos hm, or_iff_left gone, and_iff_right hm]
      simp
    · rw [if_neg hm, or_iff_right fun hnew => hm hnew.1]

/-! ### What can be read of the live documents -/

/-- How many live documents have a term in a field. -/
def frequency (p : Partition) (field term : String) : Nat :=
  p.live.countP fun e => term ∈ e.2.tokens field

theorem frequency_pos_iff (p : Partition) :
    0 < p.frequency field term ↔ ∃ d, p.Holds d ∧ term ∈ d.tokens field := by
  rw [frequency, List.countP_pos_iff]
  constructor
  · rintro ⟨⟨n, d⟩, hlive, hterm⟩
    exact ⟨d, ⟨n, mem_live.1 hlive⟩, of_decide_eq_true hterm⟩
  · rintro ⟨d, ⟨n, hd⟩, hterm⟩
    exact ⟨(n, d), mem_live.2 hd, decide_eq_true hterm⟩

/-- What the postings list for a term are the numbers of the live documents that have it. -/
theorem Indexed.documents_eq (h : p.Indexed) (field term : String) :
    p.postings.documents field term =
      (p.live.filter fun e => term ∈ e.2.tokens field).map (·.1) := by
  refine (h.wellFormed.increasing_documents field term).eq_of_mem_iff ?_ fun n => ?_
  · refine List.pairwise_map.2 ((pairwise_live.imp fun hlt => ?_).filter _)
    exact Nat.compare_eq_lt.2 hlt
  · rw [h.mem_documents_iff, List.mem_map]
    constructor
    · rintro ⟨d, hd, hterm⟩
      exact ⟨(n, d), List.mem_filter.2 ⟨mem_live.2 hd, decide_eq_true hterm⟩, rfl⟩
    · rintro ⟨⟨m, d⟩, he, rfl⟩
      obtain ⟨hlive, hterm⟩ := List.mem_filter.1 he
      exact ⟨d, mem_live.1 hlive, of_decide_eq_true hterm⟩

theorem Indexed.length_documents (h : p.Indexed) (field term : String) :
    (p.postings.documents field term).length = p.frequency field term := by
  rw [h.documents_eq, List.length_map, frequency, List.countP_eq_length_filter]

/-- The terms of a field in order, each with the number of live documents that have it. -/
theorem Indexed.exists_terms (h : p.Indexed) (field : String) :
    ∃ found : List (String × Nat),
      p.terms field = (if p.documents = [] then .error p.notFound else .ok found) ∧
      (found.Pairwise fun a b => compare a.1 b.1 = .lt) ∧
      ∀ term count, (term, count) ∈ found ↔ count = p.frequency field term ∧ 0 < count := by
  have tidy := h.wellFormed.tidy_field field
  refine ⟨((Ordered.find? field p.postings).getD []).map fun e => (e.1, e.2.length), ?_,
    List.pairwise_map.2 (tidy.sorted.imp id), fun term count => ?_⟩
  · rw [terms]
    exact if_congr List.isEmpty_iff rfl rfl
  · rw [← h.length_documents, Postings.documents_eq_listed, Postings.listed, List.mem_map]
    constructor
    · rintro ⟨⟨term, docs⟩, he, heq⟩
      obtain ⟨rfl, rfl⟩ := Prod.mk.inj heq
      rw [tidy.sorted.find?_of_mem he]
      exact ⟨rfl, List.length_pos_iff.2 (tidy.documents _ he).2⟩
    · rintro ⟨rfl, hpos⟩
      cases hfind : Ordered.find? term ((Ordered.find? field p.postings).getD []) with
      | none =>
        rw [hfind] at hpos
        exact absurd hpos (Nat.lt_irrefl 0)
      | some docs => exact ⟨_, Ordered.mem_of_find?_eq_some hfind, rfl⟩

theorem Consistent.delete_eq_true_iff (h : p.Consistent) (pk : Tuple) :
    (p.delete pk).2 = true ↔ ∃ d, p.Holds d ∧ d.primaryKey = pk := by
  cases hfind : Ordered.find? pk.pack p.byPrimaryKey with
  | none =>
    rw [Partition.delete, hfind]
    refine iff_of_false Bool.false_ne_true ?_
    rintro ⟨d, hd, hpk⟩
    exact h.primaryKey_ne hfind hd hpk
  | some n =>
    obtain ⟨d, hd, hpk⟩ := h.registered_iff.1 hfind
    rw [delete_of_registered hfind hd]
    exact ⟨fun _ => ⟨d, ⟨n, hd⟩, hpk⟩, fun _ => rfl⟩

theorem Consistent.length_documentsOf_le (h : p.Consistent) (pk : Tuple) :
    (p.documentsOf pk).length ≤ 1 := by
  by_cases hheld : ∃ d, p.Holds d ∧ d.primaryKey = pk
  · obtain ⟨d, hd, rfl⟩ := hheld
    rw [h.documentsOf_eq_singleton hd]
    exact Nat.le_refl 1
  · rw [documentsOf_eq_nil fun d hpk hd => hheld ⟨d, hd, hpk⟩]
    exact Nat.zero_le 1

/-! ### Histories -/

/-- A change of a partition. -/
inductive Change where
  /-- A document of named texts is put in, in place of any document of its primary key. -/
  | add (primaryKey : Tuple) (texts : List (String × String))
  /-- The document of a primary key is taken out. -/
  | delete (primaryKey : Tuple)
  deriving Repr

namespace Change

/-- The primary key that a change is about. -/
def primaryKey : Change → Tuple
  | add primaryKey _ => primaryKey
  | delete primaryKey => primaryKey

/-- Whether a change puts a document in. -/
def isAdd : Change → Bool
  | add .. => true
  | delete _ => false

end Change

/-- The partition after a change. -/
def apply (p : Partition) : Change → Partition
  | .add primaryKey texts => (p.add primaryKey texts).1
  | .delete primaryKey => (p.delete primaryKey).1

/-- The partition after changes, one after the other. -/
def applyAll (p : Partition) (changes : List Change) : Partition := changes.foldl apply p

/-- The numbers that the additions among some changes answer with. -/
def numbers (p : Partition) : List Change → List Nat
  | [] => []
  | .add primaryKey texts :: changes =>
    (p.add primaryKey texts).2 :: (p.add primaryKey texts).1.numbers changes
  | .delete primaryKey :: changes => (p.delete primaryKey).1.numbers changes

/-- How many documents some changes put in. -/
def additions (changes : List Change) : Nat := changes.countP Change.isAdd

/-- The document was put in by the addition of the number, and no later change is about its primary
key. -/
def Remains (changes : List Change) (n : Nat) (d : StoredDocument) : Prop :=
  ∃ before primaryKey texts after, changes = before ++ .add primaryKey texts :: after ∧
    n = additions before ∧ d = .ofTexts primaryKey texts ∧ ∀ c ∈ after, c.primaryKey ≠ primaryKey

variable {changes : List Change} {c : Change}

theorem additions_cons (c : Change) (changes : List Change) :
    additions (c :: changes) = additions changes + if c.isAdd then 1 else 0 :=
  List.countP_cons ..

theorem not_remains_nil : ¬Remains [] n d := by
  rintro ⟨before, pk, texts, after, heq, -⟩
  exact List.append_ne_nil_of_right_ne_nil _ (List.cons_ne_nil _ _) heq.symm

/-- One more change after some changes is the one that is looked at, or comes after it. -/
theorem concat_eq_append_cons {added : Change} {before after : List Change} :
    changes ++ [c] = before ++ added :: after ↔
      (before = changes ∧ added = c ∧ after = []) ∨
        ∃ between, after = between ++ [c] ∧ changes = before ++ added :: between := by
  constructor
  · intro heq
    rcases List.eq_nil_or_concat after with rfl | ⟨between, c', rfl⟩
    · obtain ⟨rfl, hc⟩ := List.append_inj' heq rfl
      exact .inl ⟨rfl, (List.singleton_inj.1 hc).symm, rfl⟩
    · rw [List.concat_eq_append, ← List.cons_append, ← List.append_assoc] at heq
      obtain ⟨rfl, hc⟩ := List.append_inj' heq rfl
      obtain rfl := List.singleton_inj.1 hc
      exact .inr ⟨between, List.concat_eq_append, rfl⟩
  · rintro (⟨rfl, rfl, rfl⟩ | ⟨between, rfl, rfl⟩)
    · rfl
    · rw [List.append_assoc, List.cons_append]

/-- One more change leaves the documents of other primary keys, and may put one in. -/
theorem remains_concat :
    Remains (changes ++ [c]) n d ↔
      (∃ primaryKey texts, c = .add primaryKey texts ∧ n = additions changes ∧
        d = .ofTexts primaryKey texts) ∨
      Remains changes n d ∧ d.primaryKey ≠ c.primaryKey := by
  constructor
  · rintro ⟨before, pk, texts, after, heq, rfl, rfl, hafter⟩
    rcases concat_eq_append_cons.1 heq with ⟨rfl, hc, rfl⟩ | ⟨between, rfl, rfl⟩
    · exact .inl ⟨pk, texts, hc.symm, rfl, rfl⟩
    · obtain ⟨hbetween, hlast⟩ := List.forall_mem_append.1 hafter
      exact .inr ⟨⟨before, pk, texts, between, rfl, rfl, rfl, hbetween⟩,
        (hlast c (List.mem_singleton_self c)).symm⟩
  · rintro (⟨pk, texts, rfl, rfl, rfl⟩ | ⟨⟨before, pk, texts, after, rfl, rfl, rfl, hafter⟩, hc⟩)
    · exact ⟨changes, pk, texts, [], rfl, rfl, rfl, List.forall_mem_nil _⟩
    · exact ⟨before, pk, texts, after ++ [c], concat_eq_append_cons.2 (.inr ⟨after, rfl, rfl⟩), rfl,
        rfl, List.forall_mem_append.2 ⟨hafter, List.forall_mem_singleton.2 hc.symm⟩⟩

theorem length_documents_delete (p : Partition) (pk : Tuple) :
    (p.delete pk).1.documents.length = p.documents.length := by
  rw [delete]
  split
  · rfl
  · dsimp only
    split
    · rfl
    · exact List.length_set

theorem length_documents_add (p : Partition) (pk : Tuple) (texts : List (String × String)) :
    (p.add pk texts).1.documents.length = p.documents.length + 1 := by
  rw [← length_documents_delete p pk]
  exact List.length_append

/-- Additions answer with the numbers that follow on those given away before. -/
theorem numbers_eq_range' (p : Partition) (changes : List Change) :
    p.numbers changes = List.range' p.documents.length (additions changes) := by
  induction changes generalizing p with
  | nil => rfl
  | cons c changes ih =>
    cases c with
    | add pk texts =>
      have number : (p.add pk texts).2 = p.documents.length := length_documents_delete p pk
      rw [numbers, ih, length_documents_add, number, additions_cons]
      exact List.range'_succ.symm
    | delete pk =>
      rw [numbers, ih, length_documents_delete, additions_cons]
      rfl

/-! ### What holds after a history -/

theorem applyAll_concat (p : Partition) (changes : List Change) (c : Change) :
    p.applyAll (changes ++ [c]) = (p.applyAll changes).apply c := by
  rw [applyAll, List.foldl_concat, applyAll]

theorem Indexed.apply (h : p.Indexed) (c : Change) : (p.apply c).Indexed := by
  cases c with
  | add pk texts => exact h.add pk texts
  | delete pk => exact h.delete pk

theorem indexed_applyAll (name : String) (groupingKey : Tuple) (changes : List Change) :
    ((empty name groupingKey).applyAll changes).Indexed := by
  induction changes using List.reverseRecOn with
  | nil => exact indexed_empty name groupingKey
  | append_singleton changes c ih =>
    rw [applyAll_concat]
    exact ih.apply c

theorem length_documents_applyAll (name : String) (groupingKey : Tuple) (changes : List Change) :
    ((empty name groupingKey).applyAll changes).documents.length = additions changes := by
  induction changes using List.reverseRecOn with
  | nil => rfl
  | append_singleton changes c ih =>
    rw [applyAll_concat, additions, List.countP_append, ← additions, ← ih]
    cases c with
    | add pk texts => exact length_documents_add ..
    | delete pk => exact length_documents_delete ..

/-- The live documents are those that remain of the changes, under the number of their addition. -/
theorem document?_applyAll (name : String) (groupingKey : Tuple) (changes : List Change) :
    ((empty name groupingKey).applyAll changes).document? n = some d ↔ Remains changes n d := by
  induction changes using List.reverseRecOn generalizing n d with
  | nil => exact iff_of_false nofun not_remains_nil
  | append_singleton changes c ih =>
    have consistent := (indexed_applyAll name groupingKey changes).consistent
    rw [applyAll_concat, remains_concat, ← ih, ← consistent.document?_delete_iff]
    cases c with
    | delete pk =>
      refine (or_iff_right ?_).symm
      rintro ⟨pk', texts, hc, -⟩
      cases hc
    | add pk texts =>
      have length := length_documents_delete ((empty name groupingKey).applyAll changes) pk
      rw [length_documents_applyAll] at length
      rw [apply, document?_add, length]
      split
      · rename_i hn
        have gone : ¬(((empty name groupingKey).applyAll changes).delete pk).1.document? n =
            some d := fun hd => absurd (lt_length_of_document? hd) (by omega)
        refine Iff.trans ?_ (or_iff_left gone).symm
        rw [Option.some.injEq]
        constructor
        · rintro rfl
          exact ⟨pk, texts, rfl, hn, rfl⟩
        · rintro ⟨pk', texts', hc, -, rfl⟩
          cases hc
          rfl
      · rename_i hn
        refine (or_iff_right ?_).symm
        rintro ⟨pk', texts', -, hn', -⟩
        exact hn hn'

/-- After any additions and deletions, the live documents of a partition are those that the changes
left, at most one for each primary key, and each addition has answered with the next number.  A
deletion tells whether there was a document.  What is listed for a term are the live documents that
have it: so a field's terms are those of the live documents, in order and with the number of documents
that have each, unless nothing was ever added, and a term's weight goes by that number. -/
theorem lists_live_documents (name : String) (groupingKey : Tuple) (changes : List Change) :
    let p := (empty name groupingKey).applyAll changes
    (∀ n d, p.document? n = some d ↔ Remains changes n d) ∧
    (∀ pk, (p.documentsOf pk).length ≤ 1) ∧
    (empty name groupingKey).numbers changes = List.range (additions changes) ∧
    (∀ pk, (p.delete pk).2 = true ↔ ∃ d, p.Holds d ∧ d.primaryKey = pk) ∧
    (∀ field term, p.postings.documents field term =
      (p.live.filter fun e => term ∈ e.2.tokens field).map (·.1)) ∧
    (∀ field, ∃ found : List (String × Nat),
      p.terms field = (if additions changes = 0 then .error p.notFound else .ok found) ∧
      (found.Pairwise fun a b => compare a.1 b.1 = .lt) ∧
      ∀ term count, (term, count) ∈ found ↔ count = p.frequency field term ∧ 0 < count) ∧
    ∀ field term, p.weight field term = (Binary32.ofNat 1).add
      (((Binary32.ofNat p.live.length).add (Binary32.ofNat 1)).div
        ((Binary32.ofNat (p.frequency field term)).add (Binary32.ofNat 1))).ln := by
  intro p
  have indexed : p.Indexed := indexed_applyAll name groupingKey changes
  have length : p.documents.length = additions changes :=
    length_documents_applyAll name groupingKey changes
  refine ⟨fun n d => document?_applyAll name groupingKey changes,
    indexed.consistent.length_documentsOf_le, ?_, indexed.consistent.delete_eq_true_iff,
    indexed.documents_eq, fun field => ?_, fun field term => ?_⟩
  · rw [numbers_eq_range', List.range_eq_range']
    rfl
  · obtain ⟨found, hfound, increasing, mem⟩ := indexed.exists_terms field
    refine ⟨found, hfound.trans (if_congr ?_ rfl rfl), increasing, mem⟩
    rw [← length, List.length_eq_zero_iff]
  · rw [weight, indexed.length_documents]
    rfl

/-- A document with a word in two texts of one field is replaced; the other one keeps its number. -/
example :
    let changes := [Change.add [.int 1] [("title", "Red fox"), ("title", "Fox, fox"), ("body", "Fox")],
      .add [.int 2] [("title", "fox")], .add [.int 1] [("title", "Blue")]]
    ((empty "notes" []).applyAll changes).postings =
        [("title", [("blue", [2]), ("fox", [1])])] ∧
      (((empty "notes" []).applyAll changes).terms "title").toOption =
        some [("blue", 1), ("fox", 1)] := by
  decide +kernel

end Partition

end ResumableQuery.Search
