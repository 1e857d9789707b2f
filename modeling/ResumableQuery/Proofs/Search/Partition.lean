import ResumableQuery.Proofs.Search.Postings
import ResumableQuery.Proofs.Tuple.PackedOrder

/-!
# Live documents of a partition

A partition registers the number of the live document of each primary key.  As long as these
registrations are right (`Consistent`), no two live documents have one primary key, so deleting a
primary key takes away its only document (`Consistent.holds_delete`), and adding one puts a document
in the place of an earlier one (`Consistent.holds_add`).
-/

namespace ResumableQuery.Search

namespace StoredDocument

/-- A field holds the tokens of the texts of its name, text after text. -/
theorem tokens_ofTexts (primaryKey : Tuple) (texts : List (String × String)) (name : String) :
    (ofTexts primaryKey texts).tokens name =
      (texts.filter (·.1 == name)).flatMap fun t => tokenTexts t.2 := by
  have onto (fields : List (String × List String)) :
      (Ordered.find? name (texts.foldl (fun fields t => Ordered.insert t.1
        ((Ordered.find? t.1 fields).getD [] ++ tokenTexts t.2) fields) fields)).getD [] =
      (Ordered.find? name fields).getD [] ++
        (texts.filter (·.1 == name)).flatMap fun t => tokenTexts t.2 := by
    induction texts generalizing fields with
    | nil => exact (List.append_nil _).symm
    | cons t texts ih =>
      rw [List.foldl_cons, ih]
      by_cases ht : t.1 = name
      · rw [List.filter_cons, if_pos (beq_iff_eq.2 ht), List.flatMap_cons, ht,
          Ordered.find?_insert_self, Option.getD_some, List.append_assoc]
      · rw [List.filter_cons, if_neg (mt beq_iff_eq.1 ht), Ordered.find?_insert_of_ne (Ne.symm ht)]
  exact onto []

end StoredDocument

namespace Partition

variable {p : Partition} {n m : Nat} {d : StoredDocument} {pk : Tuple}

/-! ### Numbers of live documents -/

theorem mem_live : (n, d) ∈ p.live ↔ p.document? n = some d := by
  simp only [live, List.mem_filterMap, List.mem_zipIdx_iff_getElem?, document?]
  constructor
  · rintro ⟨⟨d', m⟩, hget, hd⟩
    obtain ⟨d'', rfl, heq⟩ := Option.map_eq_some_iff.1 hd
    obtain ⟨rfl, rfl⟩ := Prod.mk.inj heq
    rw [hget]
    rfl
  · intro h
    exact ⟨(some d, n), Option.join_eq_some_iff.1 h, rfl⟩

theorem lt_length_of_document? (h : p.document? n = some d) : n < p.documents.length := by
  obtain ⟨hn, -⟩ := List.getElem?_eq_some_iff.1 (Option.join_eq_some_iff.1 h)
  exact hn

theorem pairwise_live : p.live.Pairwise fun a b => a.1 < b.1 := by
  have numbers : (p.documents.zipIdx.map Prod.snd).Pairwise (· < ·) := by
    rw [List.zipIdx_map_snd]
    exact List.pairwise_lt_range' 1
  refine List.Pairwise.filterMap _ (fun a a' hlt b hb b' hb' => ?_) (List.pairwise_map.1 numbers)
  obtain ⟨d, -, rfl⟩ := Option.map_eq_some_iff.1 hb
  obtain ⟨d', -, rfl⟩ := Option.map_eq_some_iff.1 hb'
  exact hlt

/-! ### Registrations -/

/-- A document of the partition is live. -/
def Holds (p : Partition) (d : StoredDocument) : Prop := ∃ n, p.document? n = some d

/-- The live documents of a primary key. -/
def documentsOf (p : Partition) (primaryKey : Tuple) : List StoredDocument :=
  (p.live.map (·.2)).filter fun d => d.primaryKey = primaryKey

/-- What is registered for a primary key is the number of its live document. -/
structure Consistent (p : Partition) : Prop where
  sorted : Ordered.Sorted p.byPrimaryKey
  registered_iff : ∀ {pk : Tuple} {n : Nat}, Ordered.find? pk.pack p.byPrimaryKey = some n ↔
    ∃ d, p.document? n = some d ∧ d.primaryKey = pk

theorem consistent_empty (name : String) (groupingKey : Tuple) :
    (empty name groupingKey).Consistent where
  sorted := Ordered.sorted_nil
  registered_iff := ⟨nofun, fun ⟨_, hd, _⟩ => nomatch hd⟩

theorem not_holds_empty {name : String} {groupingKey : Tuple} : ¬(empty name groupingKey).Holds d :=
  fun ⟨_, hd⟩ => nomatch hd

theorem Consistent.registered (h : p.Consistent) (hd : p.document? n = some d) :
    Ordered.find? d.primaryKey.pack p.byPrimaryKey = some n :=
  h.registered_iff.2 ⟨d, hd, rfl⟩

theorem Consistent.primaryKey_ne (h : p.Consistent)
    (hfind : Ordered.find? pk.pack p.byPrimaryKey = none) (hd : p.Holds d) : d.primaryKey ≠ pk := by
  rintro rfl
  obtain ⟨n, hn⟩ := hd
  rw [h.registered hn] at hfind
  cases hfind

/-- There is one live document at most for each primary key. -/
theorem Consistent.document_unique {d' : StoredDocument} {m : Nat} (h : p.Consistent)
    (hd : p.document? n = some d) (hd' : p.document? m = some d')
    (hpk : d'.primaryKey = d.primaryKey) : (m, d') = (n, d) := by
  have hm := h.registered hd'
  rw [hpk, h.registered hd] at hm
  obtain rfl := Option.some.inj hm
  exact Prod.ext rfl (Option.some.inj (hd'.symm.trans hd))

theorem Consistent.documentsOf_eq_singleton (h : p.Consistent) (hd : p.Holds d) :
    p.documentsOf d.primaryKey = [d] := by
  obtain ⟨n, hn⟩ := hd
  let mine := p.live.filter fun e => e.2.primaryKey = d.primaryKey
  have nodup : mine.Nodup := (pairwise_live.imp fun hlt heq => by
    rw [heq] at hlt
    exact Nat.lt_irrefl _ hlt).filter _
  have mem (e : Nat × StoredDocument) : e ∈ mine ↔ e ∈ [(n, d)] := by
    rw [List.mem_filter, decide_eq_true_iff, List.mem_singleton]
    exact ⟨fun he => h.document_unique hn (mem_live.1 he.1) he.2,
      fun he => he ▸ ⟨mem_live.2 hn, rfl⟩⟩
  have hmine : mine = [(n, d)] := List.perm_singleton.1
    ((List.perm_ext_iff_of_nodup nodup (List.pairwise_singleton _ _)).2 mem)
  rw [documentsOf, List.filter_map]
  exact congrArg (List.map Prod.snd) hmine

theorem documentsOf_eq_nil (h : ∀ d, d.primaryKey = pk → ¬p.Holds d) : p.documentsOf pk = [] := by
  refine List.filter_eq_nil_iff.2 fun d hd hpk => ?_
  obtain ⟨⟨n, d⟩, hlive, rfl⟩ := List.mem_map.1 hd
  exact h d (of_decide_eq_true hpk) ⟨n, mem_live.1 hlive⟩

/-! ### Changes -/

theorem delete_of_not_registered (h : Ordered.find? pk.pack p.byPrimaryKey = none) :
    (p.delete pk).1 = p := by
  rw [delete, h]

theorem delete_of_registered (h : Ordered.find? pk.pack p.byPrimaryKey = some n)
    (hd : p.document? n = some d) :
    p.delete pk = ({ p with
      documents := p.documents.set n none
      byPrimaryKey := Ordered.erase pk.pack p.byPrimaryKey
      postings := p.postings.removeFields n d.fields }, true) := by
  have hd' : Partition.document? { p with
      byPrimaryKey := Ordered.erase pk.pack p.byPrimaryKey } n = some d := hd
  rw [delete, h]
  dsimp only
  rw [hd']
  rfl

theorem postings_delete (h : Ordered.find? pk.pack p.byPrimaryKey = some n)
    (hd : p.document? n = some d) :
    (p.delete pk).1.postings = p.postings.removeFields n d.fields :=
  congrArg (postings ∘ Prod.fst) (delete_of_registered h hd)

theorem document?_of_set {q : Partition} (hq : q.documents = p.documents.set n none) (m : Nat) :
    q.document? m = if m = n then none else p.document? m := by
  rw [document?, hq, List.getElem?_set, document?]
  by_cases h : m = n
  · subst h
    rw [if_pos rfl, if_pos rfl]
    split <;> rfl
  · rw [if_neg (Ne.symm h), if_neg h]

theorem document?_of_append {q : Partition} (hq : q.documents = p.documents ++ [some d])
    (m : Nat) :
    q.document? m = if m = p.documents.length then some d else p.document? m := by
  rw [document?, hq, document?]
  by_cases h : m = p.documents.length
  · rw [if_pos h, h, List.getElem?_concat_length]
    rfl
  · rw [if_neg h]
    rcases Nat.lt_or_gt_of_ne h with hlt | hlt
    · rw [List.getElem?_append_left hlt]
    · rw [List.getElem?_eq_none (by rw [List.length_append, List.length_singleton]; omega),
        List.getElem?_eq_none (by omega)]

namespace Consistent

variable (h : p.Consistent)

include h

/-- Deleting takes away the number that was registered, and no other. -/
theorem document?_delete (pk : Tuple) (m : Nat) :
    (p.delete pk).1.document? m =
      if Ordered.find? pk.pack p.byPrimaryKey = some m then none else p.document? m := by
  cases hfind : Ordered.find? pk.pack p.byPrimaryKey with
  | none => rw [delete_of_not_registered hfind, if_neg (by simp)]
  | some n =>
    obtain ⟨d, hd, -⟩ := h.registered_iff.1 hfind
    rw [document?_of_set (congrArg (documents ∘ Prod.fst) (delete_of_registered hfind hd))]
    exact if_congr (by rw [Option.some.injEq, eq_comm]) rfl rfl

/-- Deleting leaves the live documents of other primary keys. -/
theorem document?_delete_iff {pk : Tuple} :
    (p.delete pk).1.document? n = some d ↔ p.document? n = some d ∧ d.primaryKey ≠ pk := by
  rw [h.document?_delete]
  split
  · rename_i hfind
    obtain ⟨d', hd', rfl⟩ := h.registered_iff.1 hfind
    refine iff_of_false (Option.some_ne_none d).symm fun hleft => hleft.2 ?_
    rw [Option.some.inj (hd'.symm.trans hleft.1)]
  · rename_i hfind
    refine (and_iff_left_of_imp ?_).symm
    rintro hd rfl
    exact hfind (h.registered hd)

theorem holds_delete {pk : Tuple} :
    (p.delete pk).1.Holds d ↔ p.Holds d ∧ d.primaryKey ≠ pk := by
  simp only [Holds, h.document?_delete_iff, exists_and_right]

theorem delete (pk : Tuple) : (p.delete pk).1.Consistent := by
  cases hfind : Ordered.find? pk.pack p.byPrimaryKey with
  | none =>
    rw [delete_of_not_registered hfind]
    exact h
  | some n =>
    obtain ⟨d, hd, hdpk⟩ := h.registered_iff.1 hfind
    have hkeys : (p.delete pk).1.byPrimaryKey = Ordered.erase pk.pack p.byPrimaryKey :=
      congrArg (byPrimaryKey ∘ Prod.fst) (delete_of_registered hfind hd)
    refine ⟨hkeys ▸ h.sorted.erase _, fun {pk' m} => ?_⟩
    rw [hkeys, h.document?_delete, hfind]
    by_cases hpk : pk' = pk
    · subst hpk
      rw [h.sorted.find?_erase_self]
      refine ⟨nofun, fun ⟨d', hd', hkey⟩ => ?_⟩
      split at hd'
      · cases hd'
      · rename_i hne
        exact absurd (hfind.symm.trans (h.registered_iff.2 ⟨d', hd', hkey⟩)) hne
    · rw [h.sorted.find?_erase_of_ne fun heq => hpk (Tuple.pack_injective heq), h.registered_iff]
      split
      · rename_i hm
        obtain rfl := Option.some.inj hm
        refine ⟨fun ⟨d', hd', hkey⟩ => ?_, nofun⟩
        rw [hd] at hd'
        exact absurd (hkey.symm.trans (Option.some.inj hd' ▸ hdpk)) hpk
      · exact Iff.rfl

end Consistent

section Add

variable {texts : List (String × String)}

theorem document?_add (p : Partition) (pk : Tuple) (texts : List (String × String)) (m : Nat) :
    (p.add pk texts).1.document? m = if m = (p.delete pk).1.documents.length then
      some (.ofTexts pk texts) else (p.delete pk).1.document? m :=
  document?_of_append rfl m

theorem Consistent.holds_add (h : p.Consistent) :
    (p.add pk texts).1.Holds d ↔
      d = .ofTexts pk texts ∨ p.Holds d ∧ d.primaryKey ≠ pk := by
  rw [← h.holds_delete]
  constructor
  · rintro ⟨m, hm⟩
    rw [document?_add] at hm
    split at hm
    · exact .inl (Option.some.inj hm).symm
    · exact .inr ⟨m, hm⟩
  · rintro (rfl | ⟨m, hm⟩)
    · exact ⟨_, by rw [document?_add, if_pos rfl]⟩
    · have := lt_length_of_document? hm
      exact ⟨m, by rw [document?_add, if_neg (by omega), hm]⟩

theorem Consistent.add (h : p.Consistent) (pk : Tuple) (texts : List (String × String)) :
    (p.add pk texts).1.Consistent := by
  have hq := h.delete pk
  have gone {m : Nat} : ¬∃ d, (p.delete pk).1.document? m = some d ∧ d.primaryKey = pk :=
    fun ⟨d, hd, hpk⟩ => (h.holds_delete.1 ⟨m, hd⟩).2 hpk
  have keys : (p.add pk texts).1.byPrimaryKey =
      Ordered.insert pk.pack (p.delete pk).1.documents.length (p.delete pk).1.byPrimaryKey := rfl
  refine ⟨keys ▸ hq.sorted.insert _ _, fun {pk' m} => ?_⟩
  rw [keys, document?_add]
  by_cases hpk : pk' = pk
  · subst hpk
    rw [Ordered.find?_insert_self]
    split
    · rename_i hm
      exact ⟨fun _ => ⟨_, rfl, rfl⟩, fun _ => congrArg some hm.symm⟩
    · rename_i hm
      exact ⟨fun heq => absurd (Option.some.inj heq).symm hm, fun hd => absurd hd gone⟩
  · rw [Ordered.find?_insert_of_ne fun heq => hpk (Tuple.pack_injective heq), hq.registered_iff]
    split
    · rename_i hm
      refine ⟨fun ⟨d, hd, _⟩ => ?_, fun ⟨d, hd, hkey⟩ => ?_⟩
      · have := lt_length_of_document? hd
        omega
      · rw [← Option.some.inj hd] at hkey
        exact absurd hkey.symm hpk
    · exact Iff.rfl

end Add

end Partition

end ResumableQuery.Search
