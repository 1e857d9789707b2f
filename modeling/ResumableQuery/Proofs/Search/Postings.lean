import ResumableQuery.Proofs.Ordered
import ResumableQuery.Search.Partition

/-!
# Postings

Postings are maps in order within a map in order: of fields to terms, and of terms to documents
(`Postings.WellFormed`).  Adding the fields of a document lists it for each term that it has, and
removing them takes it out again (`mem_documents_addFields`, `mem_documents_removeFields`).  A field
that is added is there, whether it has terms or not, but of the fields that are removed only those
stay that still have terms (`hasField_addFields`, `hasField_removeFields`).
-/

namespace ResumableQuery.Search.Postings

variable {doc n : Nat} {field f term t : String} {terms : List String}

/-! ### The terms of a field -/

/-- The documents that are listed for a term. -/
def listed (held : List (String × List Nat)) (term : String) : List Nat :=
  (Ordered.find? term held).getD []

/-- The terms of a field are in order, and each has documents, in order as well. -/
structure Tidy (held : List (String × List Nat)) : Prop where
  sorted : Ordered.Sorted held
  documents : ∀ e ∈ held, Ordered.Increasing e.2 ∧ e.2 ≠ []

variable {held : List (String × List Nat)}

theorem tidy_nil : Tidy [] := ⟨Ordered.sorted_nil, nofun⟩

theorem Tidy.increasing_listed (h : Tidy held) (term : String) :
    Ordered.Increasing (listed held term) := by
  rw [listed]
  cases hfind : Ordered.find? term held with
  | none => exact .nil
  | some docs => exact (h.documents _ (Ordered.mem_of_find?_eq_some hfind)).1

theorem Tidy.listed_ne_nil_iff (h : Tidy held) : held ≠ [] ↔ ∃ term, listed held term ≠ [] := by
  constructor
  · intro hne
    obtain ⟨⟨term, docs⟩, he⟩ := List.exists_mem_of_ne_nil held hne
    refine ⟨term, ?_⟩
    rw [listed, h.sorted.find?_of_mem he]
    exact (h.documents _ he).2
  · rintro ⟨term, hterm⟩ rfl
    exact hterm rfl

theorem listed_insert (term : String) (docs : List Nat) (held : List (String × List Nat))
    (t : String) :
    listed (Ordered.insert term docs held) t = if t = term then docs else listed held t := by
  split
  · rename_i ht
    rw [ht, listed, Ordered.find?_insert_self, Option.getD_some]
  · rename_i ht
    rw [listed, Ordered.find?_insert_of_ne ht, listed]

theorem Tidy.listed_erase (h : Tidy held) (term t : String) :
    listed (Ordered.erase term held) t = if t = term then [] else listed held t := by
  split
  · rename_i ht
    rw [ht, listed, h.sorted.find?_erase_self, Option.getD_none]
  · rename_i ht
    rw [listed, h.sorted.find?_erase_of_ne ht, listed]

theorem Tidy.insert {docs : List Nat} (h : Tidy held) (hdocs : Ordered.Increasing docs)
    (hne : docs ≠ []) (term : String) : Tidy (Ordered.insert term docs held) := by
  refine ⟨h.sorted.insert _ _, fun e he => ?_⟩
  rcases Ordered.mem_insert he with rfl | he
  · exact ⟨hdocs, hne⟩
  · exact h.documents e he

theorem Tidy.erase (h : Tidy held) (term : String) : Tidy (Ordered.erase term held) :=
  ⟨h.sorted.erase _, fun e he => h.documents e (Ordered.mem_erase he)⟩

/-- The terms of a field with a document added to some of them. -/
def addTerms (doc : Nat) (terms : List String) (held : List (String × List Nat)) :
    List (String × List Nat) :=
  terms.foldl (fun held term =>
    Ordered.insert term (Ordered.insertKey doc ((Ordered.find? term held).getD [])) held) held

theorem addTerms_cons (doc : Nat) (term : String) (terms : List String)
    (held : List (String × List Nat)) :
    addTerms doc (term :: terms) held =
      addTerms doc terms (Ordered.insert term (Ordered.insertKey doc (listed held term)) held) :=
  rfl

theorem addField_eq (p : Postings) (doc : Nat) (field : String) (terms : List String) :
    p.addField doc field terms =
      Ordered.insert field (addTerms doc terms ((Ordered.find? field p).getD [])) p :=
  rfl

theorem Tidy.addTerms (h : Tidy held) (doc : Nat) (terms : List String) :
    Tidy (addTerms doc terms held) := by
  induction terms generalizing held with
  | nil => exact h
  | cons term terms ih =>
    rw [addTerms_cons]
    refine ih (h.insert ((h.increasing_listed term).insertKey doc) ?_ term)
    exact List.ne_nil_of_mem (Ordered.mem_insertKey.2 (.inl rfl))

theorem mem_listed_addTerms :
    n ∈ listed (addTerms doc terms held) t ↔ n = doc ∧ t ∈ terms ∨ n ∈ listed held t := by
  induction terms generalizing held with
  | nil => simp [addTerms]
  | cons term terms ih =>
    rw [addTerms_cons, ih, listed_insert, List.mem_cons]
    split
    · rename_i ht
      rw [ht, Ordered.mem_insertKey]
      tauto
    · rename_i ht
      rw [or_iff_right ht]

/-- A term without a document: the term goes if no other document has it. -/
theorem Tidy.dropTerm (h : Tidy held) (doc : Nat) (term : String) :
    Tidy (dropTerms doc [term] held) ∧ ∀ t, listed (dropTerms doc [term] held) t =
      if t = term then Ordered.eraseKey doc (listed held term) else listed held t := by
  rw [dropTerms, List.foldl_cons, List.foldl_nil]
  cases hfind : Ordered.find? term held with
  | none =>
    refine ⟨h, fun t => ?_⟩
    dsimp only
    split
    · rename_i ht
      rw [ht, listed, hfind]
      rfl
    · rfl
  | some docs =>
    have hdocs := (h.documents _ (Ordered.mem_of_find?_eq_some hfind)).1
    have hlisted : listed held term = docs := by rw [listed, hfind, Option.getD_some]
    rw [hlisted]
    dsimp only
    split
    · rename_i hempty
      refine ⟨h.erase term, fun t => ?_⟩
      rw [h.listed_erase, List.isEmpty_iff.1 hempty]
    · rename_i hempty
      refine ⟨h.insert ?_ (mt List.isEmpty_iff.2 hempty) term, listed_insert _ _ _⟩
      rw [hdocs.eraseKey_eq_filter]
      exact hdocs.filter _

theorem dropTerms_cons (doc : Nat) (term : String) (terms : List String)
    (held : List (String × List Nat)) :
    dropTerms doc (term :: terms) held = dropTerms doc terms (dropTerms doc [term] held) :=
  rfl

theorem Tidy.dropTerms (h : Tidy held) (doc : Nat) (terms : List String) :
    Tidy (dropTerms doc terms held) ∧ ∀ n t,
      n ∈ listed (dropTerms doc terms held) t ↔ n ∈ listed held t ∧ ¬(n = doc ∧ t ∈ terms) := by
  induction terms generalizing held with
  | nil => exact ⟨h, fun n t => by simp [Postings.dropTerms]⟩
  | cons term terms ih =>
    obtain ⟨tidy, listed_eq⟩ := h.dropTerm doc term
    obtain ⟨tidy', mem⟩ := ih tidy
    rw [dropTerms_cons]
    refine ⟨tidy', fun n t => ?_⟩
    rw [mem, listed_eq, List.mem_cons]
    split
    · rename_i ht
      rw [ht, (h.increasing_listed term).eraseKey_eq_filter, List.mem_filter, decide_eq_true_iff]
      tauto
    · rename_i ht
      rw [or_iff_right ht]

/-! ### Fields -/

/-- Fields are in order, and so are the terms of each. -/
structure WellFormed (p : Postings) : Prop where
  sorted : Ordered.Sorted p
  tidy : ∀ e ∈ p, Tidy e.2

/-- The postings have the field, perhaps without terms. -/
def HasField (p : Postings) (field : String) : Prop := (Ordered.find? field p).isSome = true

variable {p : Postings}

theorem wellFormed_nil : WellFormed [] := ⟨Ordered.sorted_nil, nofun⟩

theorem documents_eq_listed (p : Postings) (field term : String) :
    p.documents field term = listed ((Ordered.find? field p).getD []) term := by
  rw [documents, listed]
  cases Ordered.find? field p <;> rfl

theorem WellFormed.tidy_field (h : p.WellFormed) (field : String) :
    Tidy ((Ordered.find? field p).getD []) := by
  cases hfind : Ordered.find? field p with
  | none => exact tidy_nil
  | some held => exact h.tidy _ (Ordered.mem_of_find?_eq_some hfind)

theorem WellFormed.insert {held : List (String × List Nat)} (h : p.WellFormed) (hheld : Tidy held)
    (field : String) : WellFormed (Ordered.insert field held p) := by
  refine ⟨h.sorted.insert _ _, fun e he => ?_⟩
  rcases Ordered.mem_insert he with rfl | he
  · exact hheld
  · exact h.tidy e he

theorem WellFormed.increasing_documents (h : p.WellFormed) (field term : String) :
    Ordered.Increasing (p.documents field term) := by
  rw [documents_eq_listed]
  exact (h.tidy_field field).increasing_listed term

theorem WellFormed.mem_iff_hasField (h : p.WellFormed) :
    field ∈ p.map (·.1) ↔ p.HasField field :=
  h.sorted.mem_keys_iff

theorem HasField.of_mem_documents (h : n ∈ p.documents field term) : p.HasField field := by
  rw [documents_eq_listed] at h
  rw [HasField]
  cases hfind : Ordered.find? field p with
  | none =>
    rw [hfind] at h
    cases h
  | some held => rfl

theorem WellFormed.addField (h : p.WellFormed) (doc : Nat) (field : String)
    (terms : List String) : (p.addField doc field terms).WellFormed := by
  rw [addField_eq]
  exact h.insert ((h.tidy_field field).addTerms doc terms) field

theorem mem_documents_addField :
    n ∈ (p.addField doc field terms).documents f t ↔
      (n = doc ∧ f = field ∧ t ∈ terms) ∨ n ∈ p.documents f t := by
  rw [addField_eq, documents_eq_listed, documents_eq_listed]
  by_cases hf : f = field
  · rw [hf, Ordered.find?_insert_self, Option.getD_some, mem_listed_addTerms]
    simp
  · rw [Ordered.find?_insert_of_ne hf]
    simp [hf]

theorem hasField_addField :
    (p.addField doc field terms).HasField f ↔ f = field ∨ p.HasField f := by
  rw [addField_eq, HasField, HasField]
  by_cases hf : f = field
  · rw [hf, Ordered.find?_insert_self]
    simp
  · rw [Ordered.find?_insert_of_ne hf]
    simp [hf]

/-- What removing a document from a field comes to: a field that is there is left out if it has no
terms without the document. -/
theorem removeField_cases (p : Postings) (doc : Nat) (field : String) (terms : List String) :
    Ordered.find? field p = none ∧ p.removeField doc field terms = p ∨
    ∃ held, Ordered.find? field p = some held ∧
      (dropTerms doc terms held = [] ∧ p.removeField doc field terms = Ordered.erase field p ∨
        dropTerms doc terms held ≠ [] ∧
          p.removeField doc field terms = Ordered.insert field (dropTerms doc terms held) p) := by
  rw [removeField]
  cases Ordered.find? field p with
  | none => exact .inl ⟨rfl, rfl⟩
  | some held =>
    refine .inr ⟨held, rfl, ?_⟩
    dsimp only
    split
    · rename_i hempty
      exact .inl ⟨List.isEmpty_iff.1 hempty, rfl⟩
    · rename_i hempty
      exact .inr ⟨mt List.isEmpty_iff.2 hempty, rfl⟩

namespace WellFormed

variable (h : p.WellFormed)

include h

theorem removeField (doc : Nat) (field : String) (terms : List String) :
    (p.removeField doc field terms).WellFormed := by
  rcases p.removeField_cases doc field terms with ⟨-, heq⟩ | ⟨held, hfind, ⟨-, heq⟩ | ⟨-, heq⟩⟩
  · rw [heq]
    exact h
  · exact heq ▸ ⟨h.sorted.erase _, fun e he => h.tidy e (Ordered.mem_erase he)⟩
  · have tidy := h.tidy _ (Ordered.mem_of_find?_eq_some hfind)
    exact heq ▸ h.insert (tidy.dropTerms doc terms).1 field

theorem find?_removeField_of_ne (doc : Nat) (terms : List String) (hf : f ≠ field) :
    Ordered.find? f (p.removeField doc field terms) = Ordered.find? f p := by
  rcases p.removeField_cases doc field terms with ⟨-, heq⟩ | ⟨held, -, ⟨-, heq⟩ | ⟨-, heq⟩⟩
  · rw [heq]
  · rw [heq, h.sorted.find?_erase_of_ne hf]
  · rw [heq, Ordered.find?_insert_of_ne hf]

theorem mem_documents_removeField :
    n ∈ (p.removeField doc field terms).documents f t ↔
      n ∈ p.documents f t ∧ ¬(n = doc ∧ f = field ∧ t ∈ terms) := by
  by_cases hf : f = field
  · subst hf
    simp only [documents_eq_listed, true_and]
    rcases p.removeField_cases doc f terms with
      ⟨hfind, heq⟩ | ⟨held, hfind, ⟨hleft, heq⟩ | ⟨-, heq⟩⟩
    · rw [heq, hfind]
      exact ⟨nofun, fun hn => hn.1⟩
    · have mem := ((h.tidy _ (Ordered.mem_of_find?_eq_some hfind)).dropTerms doc terms).2 n t
      rw [heq, h.sorted.find?_erase_self, hfind, Option.getD_some, ← mem, hleft]
      rfl
    · have mem := ((h.tidy _ (Ordered.mem_of_find?_eq_some hfind)).dropTerms doc terms).2 n t
      rw [heq, Ordered.find?_insert_self, hfind, Option.getD_some, Option.getD_some, mem]
  · rw [documents, documents, h.find?_removeField_of_ne doc terms hf]
    simp [hf]

/-- A field is there after it was removed from exactly if it still has terms. -/
theorem hasField_removeField_self :
    (p.removeField doc field terms).HasField field ↔
      ∃ t n, n ∈ (p.removeField doc field terms).documents field t := by
  refine ⟨fun hfield => ?_, fun ⟨t, n, hn⟩ => .of_mem_documents hn⟩
  rw [HasField] at hfield
  rcases p.removeField_cases doc field terms with
    ⟨hfind, heq⟩ | ⟨held, hfind, ⟨-, heq⟩ | ⟨hleft, heq⟩⟩
  · rw [heq, hfind] at hfield
    cases hfield
  · rw [heq, h.sorted.find?_erase_self] at hfield
    cases hfield
  · have tidy := ((h.tidy _ (Ordered.mem_of_find?_eq_some hfind)).dropTerms doc terms).1
    obtain ⟨t, ht⟩ := tidy.listed_ne_nil_iff.1 hleft
    obtain ⟨n, hn⟩ := List.exists_mem_of_ne_nil _ ht
    refine ⟨t, n, ?_⟩
    rw [heq, documents_eq_listed, Ordered.find?_insert_self]
    exact hn

end WellFormed

/-! ### All fields of a document -/

section Fields

variable {fields : List (String × List String)}

/-- The postings with a document added to all of its fields. -/
def addFields (p : Postings) (doc : Nat) (fields : List (String × List String)) : Postings :=
  fields.foldl (fun p e => p.addField doc e.1 e.2) p

/-- The postings with a document removed from all of its fields. -/
def removeFields (p : Postings) (doc : Nat) (fields : List (String × List String)) : Postings :=
  fields.foldl (fun p e => p.removeField doc e.1 e.2) p

theorem addFields_cons (e : String × List String) (fields : List (String × List String)) :
    p.addFields doc (e :: fields) = (p.addField doc e.1 e.2).addFields doc fields :=
  rfl

theorem removeFields_cons (e : String × List String) (fields : List (String × List String)) :
    p.removeFields doc (e :: fields) = (p.removeField doc e.1 e.2).removeFields doc fields :=
  rfl

theorem wellFormed_addFields (h : p.WellFormed) (doc : Nat)
    (fields : List (String × List String)) : (p.addFields doc fields).WellFormed := by
  induction fields generalizing p with
  | nil => exact h
  | cons e fields ih => exact ih (h.addField doc e.1 e.2)

theorem mem_documents_addFields :
    n ∈ (p.addFields doc fields).documents f t ↔
      (n = doc ∧ ∃ e ∈ fields, f = e.1 ∧ t ∈ e.2) ∨ n ∈ p.documents f t := by
  induction fields generalizing p with
  | nil => simp [addFields]
  | cons e fields ih =>
    rw [addFields_cons, ih, mem_documents_addField]
    simp only [List.mem_cons, exists_eq_or_imp]
    rw [and_or_left, or_left_comm, or_assoc]

theorem hasField_addFields :
    (p.addFields doc fields).HasField f ↔ f ∈ fields.map (·.1) ∨ p.HasField f := by
  induction fields generalizing p with
  | nil => simp [addFields]
  | cons e fields ih =>
    rw [addFields_cons, ih, hasField_addField, List.map_cons, List.mem_cons, or_left_comm, or_assoc]

theorem wellFormed_removeFields (h : p.WellFormed) (doc : Nat)
    (fields : List (String × List String)) : (p.removeFields doc fields).WellFormed := by
  induction fields generalizing p with
  | nil => exact h
  | cons e fields ih => exact ih (h.removeField doc e.1 e.2)

theorem mem_documents_removeFields (h : p.WellFormed) :
    n ∈ (p.removeFields doc fields).documents f t ↔
      n ∈ p.documents f t ∧ ¬(n = doc ∧ ∃ e ∈ fields, f = e.1 ∧ t ∈ e.2) := by
  induction fields generalizing p with
  | nil => simp [removeFields]
  | cons e fields ih =>
    rw [removeFields_cons, ih (h.removeField doc e.1 e.2), h.mem_documents_removeField]
    simp only [List.mem_cons, exists_eq_or_imp]
    rw [and_or_left, not_or, and_assoc]

/-- Of the fields that a document was removed from those are left that still have terms. -/
theorem hasField_removeFields (h : p.WellFormed) :
    (p.removeFields doc fields).HasField f ↔
      if f ∈ fields.map (·.1) then ∃ t n, n ∈ (p.removeFields doc fields).documents f t
      else p.HasField f := by
  induction fields generalizing p with
  | nil => simp [removeFields]
  | cons e fields ih =>
    have hrest := h.removeField doc e.1 e.2
    rw [removeFields_cons, ih hrest, List.map_cons]
    by_cases hmore : f ∈ fields.map (·.1)
    · rw [if_pos hmore, if_pos (List.mem_cons_of_mem _ hmore)]
    · rw [if_neg hmore]
      by_cases hf : f = e.1
      · -- Removing the document from the other fields leaves the terms of this one.
        have same (t : String) (n : Nat) :
            n ∈ ((p.removeField doc e.1 e.2).removeFields doc fields).documents f t ↔
              n ∈ (p.removeField doc e.1 e.2).documents f t := by
          rw [mem_documents_removeFields hrest]
          refine and_iff_left ?_
          rintro ⟨-, e', he', hf', -⟩
          exact hmore (List.mem_map.2 ⟨e', he', hf'.symm⟩)
        rw [if_pos (List.mem_cons.2 (.inl hf))]
        simp only [same]
        rw [hf, h.hasField_removeField_self]
      · rw [if_neg (by simp [hf, hmore]), HasField, h.find?_removeField_of_ne doc e.2 hf, HasField]

end Fields

end ResumableQuery.Search.Postings
