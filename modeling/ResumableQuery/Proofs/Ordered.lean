import Mathlib.Data.List.Sort
import ResumableQuery.Store

/-!
# Entries in key order

Association lists keep strictly increasing keys: `insert` and `erase` preserve the order, so every
store that is built by setting and clearing keys is in order.  Lists of keys alone are kept in order
in the same way (`Increasing`), and there looking a key up and taking one out are what they are for
any list.
-/

namespace ResumableQuery

namespace Ordered

variable {κ ν : Type} [Ord κ]

/-- The keys increase strictly. -/
def Sorted (entries : List (κ × ν)) : Prop := entries.Pairwise fun a b => compare a.1 b.1 = .lt

theorem sorted_nil : Sorted ([] : List (κ × ν)) := .nil

theorem mem_insert {k : κ} {v : ν} {entries : List (κ × ν)} {e : κ × ν}
    (h : e ∈ insert k v entries) : e = (k, v) ∨ e ∈ entries := by
  induction entries with
  | nil => exact .inl (List.mem_singleton.1 h)
  | cons e' rest ih =>
    rw [insert] at h
    split at h
    · exact List.mem_cons.1 h
    · exact (List.mem_cons.1 h).imp_right (List.mem_cons_of_mem _)
    · rcases List.mem_cons.1 h with rfl | h
      · exact .inr List.mem_cons_self
      · exact (ih h).imp_right (List.mem_cons_of_mem _)

theorem mem_erase {k : κ} {entries : List (κ × ν)} {e : κ × ν} (h : e ∈ erase k entries) :
    e ∈ entries := by
  induction entries with
  | nil => exact h
  | cons e' rest ih =>
    rw [erase] at h
    split at h
    · exact h
    · exact List.mem_cons_of_mem _ h
    · rcases List.mem_cons.1 h with rfl | h
      · exact List.mem_cons_self
      · exact List.mem_cons_of_mem _ (ih h)

theorem Sorted.insert [Std.TransOrd κ] [Std.LawfulEqOrd κ] {entries : List (κ × ν)}
    (h : Sorted entries) (k : κ) (v : ν) : Sorted (insert k v entries) := by
  induction entries with
  | nil => exact List.pairwise_singleton _ _
  | cons e rest ih =>
    obtain ⟨he, hrest⟩ := List.pairwise_cons.1 h
    rw [Ordered.insert]
    split
    · rename_i hk
      refine List.pairwise_cons.2 ⟨fun x hx => ?_, h⟩
      rcases List.mem_cons.1 hx with rfl | hx
      · exact hk
      · exact Std.TransCmp.lt_trans hk (he x hx)
    · rename_i hk
      obtain rfl := Std.LawfulEqCmp.eq_of_compare hk
      exact List.pairwise_cons.2 ⟨he, hrest⟩
    · rename_i hk
      refine List.pairwise_cons.2 ⟨fun x hx => ?_, ih hrest⟩
      rcases mem_insert hx with rfl | hx
      · exact Std.OrientedCmp.gt_iff_lt.1 hk
      · exact he x hx

theorem Sorted.erase {entries : List (κ × ν)} (h : Sorted entries) (k : κ) :
    Sorted (erase k entries) := by
  induction entries with
  | nil => exact h
  | cons e rest ih =>
    obtain ⟨he, hrest⟩ := List.pairwise_cons.1 h
    rw [Ordered.erase]
    split
    · exact h
    · exact hrest
    · exact List.pairwise_cons.2 ⟨fun x hx => he x (mem_erase hx), ih hrest⟩

/-- Entries in order have one value under a key. -/
theorem Sorted.find?_of_mem [Std.TransOrd κ] {entries : List (κ × ν)} (h : Sorted entries) {k : κ}
    {v : ν} (hmem : (k, v) ∈ entries) : find? k entries = some v := by
  induction entries with
  | nil => cases hmem
  | cons e rest ih =>
    obtain ⟨he, hrest⟩ := List.pairwise_cons.1 h
    rcases List.mem_cons.1 hmem with rfl | hmem
    · rw [find?, Std.compare_self]
    · rw [find?, Std.OrientedCmp.gt_iff_lt.2 (he (k, v) hmem)]
      exact ih hrest hmem

theorem mem_of_find?_eq_some [Std.LawfulEqOrd κ] {k : κ} {v : ν} {entries : List (κ × ν)}
    (h : find? k entries = some v) : (k, v) ∈ entries := by
  induction entries with
  | nil => cases h
  | cons e rest ih =>
    rw [find?] at h
    split at h
    · cases h
    · rename_i hk
      rw [Std.LawfulEqCmp.eq_of_compare hk, ← Option.some.inj h]
      exact List.mem_cons_self
    · exact List.mem_cons_of_mem _ (ih h)

theorem insert_eq_append [Std.OrientedOrd κ] {k : κ} {v : ν} {entries : List (κ × ν)}
    (h : ∀ e ∈ entries, compare e.1 k = .lt) : insert k v entries = entries ++ [(k, v)] := by
  induction entries with
  | nil => rfl
  | cons e rest ih =>
    obtain ⟨he, hrest⟩ := List.forall_mem_cons.1 h
    rw [insert, Std.OrientedCmp.gt_iff_lt.2 he, ih hrest]
    rfl

/-- Entries that are in order are read as they are. -/
theorem Sorted.ofList_eq [Std.OrientedOrd κ] {entries : List (κ × ν)} (h : Sorted entries) :
    ofList entries = entries := by
  have onto (done more : List (κ × ν)) (h : Sorted (done ++ more)) :
      more.foldl (fun acc e => Ordered.insert e.1 e.2 acc) done = done ++ more := by
    induction more generalizing done with
    | nil => rw [List.append_nil, List.foldl_nil]
    | cons e more ih =>
      have hlast := (List.pairwise_append.1 h).2.2
      rw [List.foldl_cons, insert_eq_append fun x hx => hlast x hx e List.mem_cons_self]
      rw [List.append_cons] at h
      rw [ih _ h, ← List.append_cons]
  exact onto [] entries h

/-! ### Other keys -/

theorem find?_insert_self [Std.ReflOrd κ] (k : κ) (v : ν) (entries : List (κ × ν)) :
    find? k (insert k v entries) = some v := by
  have here (rest : List (κ × ν)) : find? k ((k, v) :: rest) = some v := by
    rw [find?, Std.compare_self]
  induction entries with
  | nil => exact here []
  | cons e rest ih =>
    rw [insert]
    split
    · exact here _
    · exact here _
    · rename_i hk
      rw [find?, hk]
      exact ih

theorem find?_insert_of_ne [Std.TransOrd κ] [Std.LawfulEqOrd κ] {k k' : κ} (hne : k' ≠ k) (v : ν)
    (entries : List (κ × ν)) : find? k' (insert k v entries) = find? k' entries := by
  have past {rest : List (κ × ν)} (h : compare k' k = .gt) :
      find? k' ((k, v) :: rest) = find? k' rest := by rw [find?, h]
  have short {e : κ × ν} {rest : List (κ × ν)} (h : compare k' e.1 = .lt) :
      find? k' (e :: rest) = none := by rw [find?, h]
  induction entries with
  | nil =>
    cases hk : compare k' k with
    | lt => exact short hk
    | eq => exact absurd (Std.LawfulEqCmp.eq_of_compare hk) hne
    | gt => exact past hk
  | cons e rest ih =>
    rw [insert]
    split
    · rename_i hke
      cases hk : compare k' k with
      | lt => rw [short hk, short (Std.TransCmp.lt_trans hk hke)]
      | eq => exact absurd (Std.LawfulEqCmp.eq_of_compare hk) hne
      | gt => exact past hk
    · rename_i hke
      rw [find?, find?, Std.LawfulEqCmp.eq_of_compare hke]
      cases hk : compare k' e.1 with
      | lt => rfl
      | eq => exact absurd ((Std.LawfulEqCmp.eq_of_compare hk).trans
          (Std.LawfulEqCmp.eq_of_compare hke).symm) hne
      | gt => rfl
    · rw [find?, find?, ih]

/-- A list of entries that are made ordered brings no others in. -/
theorem mem_of_mem_ofList {entries : List (κ × ν)} {e : κ × ν} (h : e ∈ ofList entries) :
    e ∈ entries := by
  have onto (more acc : List (κ × ν))
      (h : e ∈ more.foldl (fun acc e => insert e.1 e.2 acc) acc) : e ∈ acc ∨ e ∈ more := by
    induction more generalizing acc with
    | nil => exact .inl h
    | cons e' more ih =>
      rcases ih _ h with h | h
      · rcases mem_insert h with rfl | h
        · exact .inr List.mem_cons_self
        · exact .inl h
      · exact .inr (List.mem_cons_of_mem _ h)
  exact (onto entries [] h).resolve_left List.not_mem_nil

/-- The entries that a function gives for some keys hold what the function gives. -/
theorem find?_ofList_filterMap [Std.TransOrd κ] [Std.LawfulEqOrd κ] [DecidableEq κ]
    (g : κ → Option ν) (keys : List κ) (k : κ) :
    find? k (ofList (keys.filterMap fun x => (g x).map (x, ·))) =
      if k ∈ keys then g k else none := by
  have onto (keys : List κ) (acc : List (κ × ν)) :
      find? k ((keys.filterMap fun x => (g x).map (x, ·)).foldl
        (fun acc e => insert e.1 e.2 acc) acc) =
        (if k ∈ keys then g k else none).or (find? k acc) := by
    induction keys generalizing acc with
    | nil => rfl
    | cons x keys ih =>
      cases hx : g x with
      | none =>
        rw [List.filterMap_cons_none (by rw [hx]; rfl), ih]
        by_cases hkx : k = x
        · simp [hkx, hx]
        · simp [hkx]
      | some v =>
        rw [List.filterMap_cons_some (by rw [hx]; rfl), List.foldl_cons, ih]
        by_cases hkx : k = x
        · rw [hkx, find?_insert_self, hx, if_pos List.mem_cons_self]
          split <;> rfl
        · rw [find?_insert_of_ne hkx]
          simp [hkx]
  rw [ofList, onto]
  exact Option.or_none

theorem find?_eq_none_of_forall_lt {k : κ} {entries : List (κ × ν)}
    (h : ∀ e ∈ entries, compare k e.1 = .lt) : find? k entries = none := by
  cases entries with
  | nil => rfl
  | cons e rest => rw [find?, h e List.mem_cons_self]

/-- What is under a key does not depend on entries of other keys. -/
theorem find?_filter [Std.TransOrd κ] [Std.LawfulEqOrd κ] {entries : List (κ × ν)}
    (h : Sorted entries) {p : κ → Bool} {k : κ} (hk : p k = true) :
    find? k (entries.filter fun e => p e.1) = find? k entries := by
  induction entries with
  | nil => rfl
  | cons e rest ih =>
    obtain ⟨he, hrest⟩ := List.pairwise_cons.1 h
    rw [List.filter_cons]
    split
    · rw [find?, find?, ih hrest]
    · rename_i hp
      rw [ih hrest, find?]
      cases hcmp : compare k e.1 with
      | lt => exact find?_eq_none_of_forall_lt fun x hx => Std.TransCmp.lt_trans hcmp (he x hx)
      | eq =>
        rw [Std.LawfulEqCmp.eq_of_compare hcmp] at hk
        exact absurd hk hp
      | gt => rfl

section Filter

variable [Std.LawfulEqOrd κ] {p : κ → Bool} {k : κ} (hk : p k = false)

include hk

theorem filter_insert (v : ν) (entries : List (κ × ν)) :
    (insert k v entries).filter (fun e => p e.1) = entries.filter fun e => p e.1 := by
  induction entries with
  | nil => simp [insert, hk]
  | cons e rest ih =>
    rw [insert]
    split
    · simp [List.filter_cons, hk]
    · rename_i hcmp
      rw [Std.LawfulEqCmp.eq_of_compare hcmp] at hk
      simp [hk, Std.LawfulEqCmp.eq_of_compare hcmp]
    · rw [List.filter_cons, List.filter_cons, ih]

theorem filter_erase (entries : List (κ × ν)) :
    (erase k entries).filter (fun e => p e.1) = entries.filter fun e => p e.1 := by
  induction entries with
  | nil => rfl
  | cons e rest ih =>
    rw [erase]
    split
    · rfl
    · rename_i hcmp
      rw [Std.LawfulEqCmp.eq_of_compare hcmp] at hk
      simp [hk]
    · rw [List.filter_cons, List.filter_cons, ih]

end Filter

/-! ### Entries of a changed list -/

omit [Ord κ] in
theorem mem_iff_of_filter_eq {p : κ → Bool} {entries changed : List (κ × ν)}
    (hfilter : changed.filter (fun e => p e.1) = entries.filter fun e => p e.1) {e : κ × ν}
    (he : p e.1 = true) : e ∈ changed ↔ e ∈ entries := by
  have hmem : e ∈ changed.filter (fun e => p e.1) ↔ e ∈ entries.filter fun e => p e.1 := by
    rw [hfilter]
  simpa only [List.mem_filter, he, and_true] using hmem

theorem Sorted.find?_erase_self [Std.LawfulEqOrd κ] {entries : List (κ × ν)} (h : Sorted entries)
    (k : κ) : find? k (Ordered.erase k entries) = none := by
  induction entries with
  | nil => rfl
  | cons e rest ih =>
    obtain ⟨he, hrest⟩ := List.pairwise_cons.1 h
    rw [Ordered.erase]
    split
    · rename_i hk
      rw [find?, hk]
    · rename_i hk
      rw [Std.LawfulEqCmp.eq_of_compare hk]
      exact find?_eq_none_of_forall_lt he
    · rename_i hk
      rw [find?, hk]
      exact ih hrest

section Changes

variable [Std.TransOrd κ] [Std.LawfulEqOrd κ] {entries : List (κ × ν)} (h : Sorted entries)

include h

theorem Sorted.mem_iff_find? {k : κ} {v : ν} : (k, v) ∈ entries ↔ find? k entries = some v :=
  ⟨h.find?_of_mem, mem_of_find?_eq_some⟩

theorem Sorted.mem_keys_iff {k : κ} : k ∈ entries.map (·.1) ↔ (find? k entries).isSome = true := by
  rw [Option.isSome_iff_exists, List.mem_map]
  constructor
  · rintro ⟨⟨k, v⟩, he, rfl⟩
    exact ⟨v, h.find?_of_mem he⟩
  · rintro ⟨v, hfind⟩
    exact ⟨(k, v), mem_of_find?_eq_some hfind, rfl⟩

variable [DecidableEq κ] {k : κ} {e : κ × ν}

theorem Sorted.mem_insert_iff {v : ν} :
    e ∈ Ordered.insert k v entries ↔ e = (k, v) ∨ e.1 ≠ k ∧ e ∈ entries := by
  by_cases he : e.1 = k
  · obtain ⟨k', v'⟩ := e
    obtain rfl : k' = k := he
    rw [(h.insert k' v).mem_iff_find?, find?_insert_self]
    simp [eq_comm]
  · have hother := filter_insert (p := fun k' => decide (k' ≠ k)) (k := k) (by simp) v entries
    rw [mem_iff_of_filter_eq (p := fun k' => decide (k' ≠ k)) hother (decide_eq_true he)]
    refine ⟨fun hmem => .inr ⟨he, hmem⟩, ?_⟩
    rintro (rfl | ⟨-, hmem⟩)
    · exact absurd rfl he
    · exact hmem

theorem Sorted.mem_erase_iff : e ∈ Ordered.erase k entries ↔ e.1 ≠ k ∧ e ∈ entries := by
  by_cases he : e.1 = k
  · obtain ⟨k', v'⟩ := e
    obtain rfl : k' = k := he
    rw [(h.erase k').mem_iff_find?, h.find?_erase_self]
    simp
  · have hother := filter_erase (p := fun k' => decide (k' ≠ k)) (k := k) (by simp) entries
    rw [mem_iff_of_filter_eq (p := fun k' => decide (k' ≠ k)) hother (decide_eq_true he)]
    exact (and_iff_right he).symm

theorem Sorted.find?_erase_of_ne {k' : κ} (hne : k' ≠ k) :
    find? k' (Ordered.erase k entries) = find? k' entries := by
  have hk' : decide (k' ≠ k) = true := decide_eq_true hne
  rw [← find?_filter (h.erase k) (p := fun x => decide (x ≠ k)) hk',
    filter_erase (p := fun x => decide (x ≠ k)) (by simp),
    find?_filter h (p := fun x => decide (x ≠ k)) hk']

end Changes

/-! ### Keys -/

section Keys

variable [Std.LawfulEqOrd κ] {k x : κ} {keys : List κ}

theorem mem_insertKey : x ∈ insertKey k keys ↔ x = k ∨ x ∈ keys := by
  induction keys with
  | nil => simp [insertKey]
  | cons k' rest ih =>
    rw [insertKey]
    split
    · rw [List.mem_cons]
    · rename_i heq
      rw [Std.LawfulEqCmp.eq_of_compare heq, List.mem_cons]
      exact ⟨.inr, fun h => h.elim .inl id⟩
    · rw [List.mem_cons, ih, List.mem_cons]
      exact or_left_comm

/-- The keys increase strictly. -/
def Increasing (keys : List κ) : Prop := keys.Pairwise fun a b => compare a b = .lt

theorem Increasing.insertKey [Std.TransOrd κ] (h : Increasing keys) (k : κ) :
    Increasing (insertKey k keys) := by
  induction keys with
  | nil => exact List.pairwise_singleton _ _
  | cons k' rest ih =>
    obtain ⟨hk', hrest⟩ := List.pairwise_cons.1 h
    rw [Ordered.insertKey]
    split
    · rename_i hk
      refine List.pairwise_cons.2 ⟨fun x hx => ?_, h⟩
      rcases List.mem_cons.1 hx with rfl | hx
      · exact hk
      · exact Std.TransCmp.lt_trans hk (hk' x hx)
    · exact h
    · rename_i hk
      refine List.pairwise_cons.2 ⟨fun x hx => ?_, ih hrest⟩
      rcases mem_insertKey.1 hx with rfl | hx
      · exact Std.OrientedCmp.gt_iff_lt.1 hk
      · exact hk' x hx

theorem increasing_keysOf [Std.TransOrd κ] (keys : List κ) : Increasing (keysOf keys) := by
  have onto (more acc : List κ) (h : Increasing acc) :
      Increasing (more.foldl (fun acc k => Ordered.insertKey k acc) acc) := by
    induction more generalizing acc with
    | nil => exact h
    | cons k more ih => exact ih _ (h.insertKey k)
  exact onto keys [] .nil

omit [Std.LawfulEqOrd κ] in
theorem ne_of_compare [Std.ReflOrd κ] {a b : κ} {o : Ordering} (h : compare a b = o)
    (ho : o ≠ .eq) : a ≠ b := by
  rintro rfl
  exact ho (h.symm.trans Std.compare_self)

omit [Std.LawfulEqOrd κ] in
theorem Increasing.nodup [Std.ReflOrd κ] (h : Increasing keys) : keys.Nodup :=
  List.Pairwise.imp (fun hlt => ne_of_compare hlt (by decide)) h

theorem Increasing.not_mem_of_lt [Std.TransOrd κ] {k' : κ} {rest : List κ}
    (h : Increasing (k' :: rest)) (hk : compare k k' = .lt) : k ∉ k' :: rest := by
  intro hmem
  rcases List.mem_cons.1 hmem with rfl | hmem
  · exact ne_of_compare hk (by decide) rfl
  · have hlt := Std.TransCmp.lt_trans hk ((List.pairwise_cons.1 h).1 k hmem)
    exact ne_of_compare hlt (by decide) rfl

theorem Increasing.member_iff [Std.TransOrd κ] (h : Increasing keys) :
    member k keys = true ↔ k ∈ keys := by
  induction keys with
  | nil => simp [member]
  | cons k' rest ih =>
    rw [member]
    split
    · rename_i hk
      exact ⟨fun hf => absurd hf Bool.false_ne_true, fun hmem => absurd hmem (h.not_mem_of_lt hk)⟩
    · rename_i hk
      exact ⟨fun _ => Std.LawfulEqCmp.eq_of_compare hk ▸ List.mem_cons_self, fun _ => rfl⟩
    · rename_i hk
      rw [ih (List.pairwise_cons.1 h).2, List.mem_cons, or_iff_right]
      exact ne_of_compare hk (by decide)

theorem Increasing.eraseKey_eq_filter [Std.TransOrd κ] [DecidableEq κ] (h : Increasing keys)
    (k : κ) : eraseKey k keys = keys.filter (· ≠ k) := by
  induction keys with
  | nil => rfl
  | cons k' rest ih =>
    obtain ⟨hk', hrest⟩ := List.pairwise_cons.1 h
    rw [eraseKey]
    split
    · rename_i hk
      refine (List.filter_eq_self.2 fun x hx => decide_eq_true ?_).symm
      rintro rfl
      exact h.not_mem_of_lt hk hx
    · rename_i hk
      obtain rfl := Std.LawfulEqCmp.eq_of_compare hk
      rw [List.filter_cons_of_neg (by simp)]
      refine (List.filter_eq_self.2 fun x hx => decide_eq_true ?_).symm
      exact (ne_of_compare (hk' x hx) (by decide)).symm
    · rename_i hk
      have hne : k' ≠ k := (ne_of_compare hk (by decide)).symm
      rw [List.filter_cons, if_pos (decide_eq_true hne), ih hrest]

omit [Std.LawfulEqOrd κ] in
/-- Keys that increase are determined by which they are. -/
theorem Increasing.eq_of_mem_iff [Std.TransOrd κ] {others : List κ} (h : Increasing keys)
    (hothers : Increasing others) (hmem : ∀ x, x ∈ keys ↔ x ∈ others) : keys = others := by
  have irrefl (a : κ) : ¬ compare a a = .lt := fun ha => ne_of_compare ha (by decide) rfl
  have : Std.Irrefl fun a b : κ => compare a b = .lt := ⟨irrefl⟩
  have : Std.Antisymm fun a b : κ => compare a b = .lt :=
    ⟨fun a _ hab hba => absurd (Std.TransCmp.lt_trans hab hba) (irrefl a)⟩
  exact List.Pairwise.eq_of_mem_iff h hothers hmem

/-- Ordering keys and dropping those that come again keeps which keys there are. -/
theorem mem_keysOf : x ∈ keysOf keys ↔ x ∈ keys := by
  have onto (acc : List κ) :
      x ∈ keys.foldl (fun acc k => insertKey k acc) acc ↔ x ∈ acc ∨ x ∈ keys := by
    induction keys generalizing acc with
    | nil => simp
    | cons k keys ih =>
      rw [List.foldl_cons, ih, mem_insertKey, List.mem_cons, or_assoc, or_left_comm]
  rw [keysOf, onto]
  simp

end Keys

end Ordered

namespace Store

/-- The pairs of the store are in key order. -/
def Sorted (s : Store) : Prop := Ordered.Sorted s

instance (s : Store) : Decidable s.Sorted :=
  inferInstanceAs (Decidable (List.Pairwise (fun a b => compare a.1 b.1 = .lt) s))

theorem sorted_nil : Sorted [] := Ordered.sorted_nil

theorem Sorted.set {s : Store} (h : s.Sorted) (key value : Bytes) : (s.set key value).Sorted :=
  Ordered.Sorted.insert h key value

theorem Sorted.clear {s : Store} (h : s.Sorted) (key : Bytes) : (s.clear key).Sorted :=
  Ordered.Sorted.erase h key

end Store

end ResumableQuery
