import ResumableQuery.Proofs.Except
import ResumableQuery.Proofs.Search.Highlight
import ResumableQuery.Proofs.Search.Maintenance
import ResumableQuery.Proofs.Search.QuotedCompletion
import ResumableQuery.Proofs.Search.Words

/-!
# Entries of a completion and the records in the store

The index may be out of step with the store: records are deleted, put into another partition or
changed, and their documents stay.  An entry is made of the record as it is stored now, and it shows
a text that this record has (`Completion.Shows`).  Its hit, the field of the text and the text among
the values of the field are a place, and the entries come in the order of their places
(`Completion.returned_from_records`), no matter how many records are loaded at a time.
-/

namespace ResumableQuery

/-! ### Lists that come from places -/

/-- The members of a list come from places that follow one another. -/
def ComesFrom (before : ι → ι → Prop) (source : α → ι → Prop) (l : List α) : Prop :=
  ∃ places : List ι, places.Pairwise before ∧ List.Forall₂ source l places

namespace ComesFrom

variable {before : ι → ι → Prop} {source : α → ι → Prop} {l : List α}

theorem nil : ComesFrom before source [] := ⟨[], .nil, .nil⟩

/-- The places may be told in another way that keeps their order. -/
theorem map {before' : κ → κ → Prop} {source' : α → κ → Prop} (h : ComesFrom before source l)
    (g : ι → κ) (hbefore : ∀ i j, before i j → before' (g i) (g j))
    (hsource : ∀ a i, source a i → source' a (g i)) : ComesFrom before' source' l := by
  obtain ⟨places, ordered, pairs⟩ := h
  refine ⟨places.map g, List.pairwise_map.2 (ordered.imp fun {i j} => hbefore i j), ?_⟩
  exact List.forall₂_map_right_iff.2 (pairs.imp hsource)

theorem mono {source' : α → ι → Prop} (h : ComesFrom before source l)
    (hsource : ∀ a i, source a i → source' a i) : ComesFrom before source' l :=
  h.map id (fun _ _ => id) hsource

theorem drop (h : ComesFrom before source l) (n : ℕ) : ComesFrom before source (l.drop n) := by
  obtain ⟨places, ordered, pairs⟩ := h
  exact ⟨places.drop n, ordered.sublist (List.drop_sublist n places), List.forall₂_drop n pairs⟩

theorem take (h : ComesFrom before source l) (n : ℕ) : ComesFrom before source (l.take n) := by
  obtain ⟨places, ordered, pairs⟩ := h
  exact ⟨places.take n, ordered.sublist (List.take_sublist n places), List.forall₂_take n pairs⟩

/-- One more member at the front comes from the place in front. -/
theorem cons {source : α → ℕ → Prop} {a : α} (ha : source a 0)
    (h : ComesFrom (· < ·) (fun a i => source a (i + 1)) l) :
    ComesFrom (· < ·) source (a :: l) := by
  obtain ⟨places, ordered, pairs⟩ := h
  refine ⟨0 :: places.map (· + 1), ?_, .cons ha (List.forall₂_map_right_iff.2 pairs)⟩
  refine List.pairwise_cons.2 ⟨by simp, List.pairwise_map.2 (ordered.imp ?_)⟩
  intro i j h
  omega

/-- What a list is filtered to comes from the places in the list. -/
theorem filterMap (f : β → Option α) (l : List β) :
    ComesFrom (· < ·) (fun a (i : ℕ) => ∃ b, l[i]? = some b ∧ f b = some a) (l.filterMap f) := by
  induction l with
  | nil => exact nil
  | cons b l ih =>
    cases hb : f b with
    | none =>
      rw [List.filterMap_cons_none hb]
      refine ih.map (· + 1) (fun i j h => by omega) fun a i ha => ?_
      simpa using ha
    | some a =>
      rw [List.filterMap_cons_some hb]
      exact .cons ⟨b, rfl, hb⟩ (by simpa using ih)

/-- Where the members of each list come from places of its own, those of all lists in a row come
from the number of the list and the place. -/
theorem flatten {lists : List (List α)} (source : ℕ → α → ι → Prop)
    (h : ∀ i l, lists[i]? = some l → ComesFrom before (source i) l) :
    ComesFrom (Prod.Lex (· < ·) before) (fun a p => source p.1 a p.2) lists.flatten := by
  induction lists generalizing source with
  | nil => exact nil
  | cons l lists ih =>
    obtain ⟨first, orderedFirst, pairsFirst⟩ := h 0 l rfl
    obtain ⟨rest, orderedRest, pairsRest⟩ :=
      ih (fun i => source (i + 1)) fun i l hl => h (i + 1) l (by simpa using hl)
    refine ⟨first.map (Prod.mk 0) ++ rest.map (Prod.map (· + 1) id), ?_, ?_⟩
    · refine List.pairwise_append.2 ⟨List.pairwise_map.2 ?_, List.pairwise_map.2 ?_, ?_⟩
      · exact orderedFirst.imp fun h => .right 0 h
      · refine orderedRest.imp fun {p q} h => ?_
        cases h with
        | left _ _ h => exact .left _ _ (by simpa using h)
        | right _ h => exact .right _ h
      · intro p hp q hq
        obtain ⟨i, -, rfl⟩ := List.mem_map.1 hp
        obtain ⟨x, -, rfl⟩ := List.mem_map.1 hq
        exact .left _ _ (Nat.succ_pos x.1)
    · rw [List.flatten_cons]
      apply List.rel_append
      · exact List.forall₂_map_right_iff.2 pairsFirst
      · exact List.forall₂_map_right_iff.2 pairsRest

theorem window (h : ComesFrom before source l) (p : ScanProperties) (returned : ℕ) :
    ComesFrom before source (p.window returned l) := by
  unfold ScanProperties.window
  split
  · exact h
  · exact h.take _

end ComesFrom

theorem getElem?_untilError {l : List (Except ε β)} {i : ℕ} {b : β}
    (h : (untilError l)[i]? = some b) : l[i]? = some (.ok b) := by
  induction l generalizing i with
  | nil => simp [untilError] at h
  | cons x l ih =>
    cases x with
    | error e => simp [untilError] at h
    | ok b' =>
      cases i with
      | zero => simpa [untilError] using h
      | succ i => simpa [untilError] using ih (by simpa [untilError] using h)

namespace Search

/-- The index sees a record that belongs to a partition, and the values at its fields. -/
theorem Index.belongs_of_fieldsOf {i : Index} {r : Option Record} {groupingKey : Tuple}
    {fields : List DocumentField} (h : i.fieldsOf r = .ok (some (groupingKey, fields))) :
    ∃ record, r = some record ∧ i.Belongs groupingKey record ∧
      fields = i.definition.textFields.flatMap (IndexDefinition.fieldsAt record) := by
  cases r with
  | none => cases h
  | some record =>
    rcases fieldsOf_some h with ⟨-, hnone⟩ | ⟨key, belongs, hfields⟩
    · cases hnone
    · cases hfields
      exact ⟨record, rfl, belongs, rfl⟩

namespace Completion

variable {s : Completion} {w : World} {reader : Reader} {hits : List ScoreDoc}

/-! ### Entries and their records -/

/-- What an entry says is so in the store: the record of its primary key is of the partition and has
the text under the name of the field, and the text, which the entry shows, is not too long and has
the typed words. -/
structure Shows (s : Completion) (w : World) (e : IndexEntry) (record : Record)
    (name text : String) : Prop where
  stored : ∃ primaryKey, e.primaryKey = some primaryKey ∧
    (s.index.records.load primaryKey w).2 = .ok (some record)
  belongs : s.index.Belongs s.groupingKey record
  short : text.toList.length ≤ s.index.records.config.autoCompleteTextLimit
  holds : HoldsTerms s.wanted.complete s.wanted.unfinished (tokenTexts text)
  key : ∃ shown, e.key = s.groupingKey ++ [.text name, .text shown] ∧
    Marks text.toList shown.toList ∧ (s.highlight = false → shown = text)

/-- The place of an entry: the rank of its hit, the number of its field among those declared, and
the number of its text among the values of the field. -/
abbrev EntryPlace := ℕ × ℕ × ℕ

/-- Hits come first, then fields, then the values of a field. -/
def Earlier : EntryPlace → EntryPlace → Prop :=
  Prod.Lex (· < ·) (Prod.Lex (· < ·) (· < ·))

/-- The entry shows a text that the record of a hit has at the place. -/
def StandsFor (s : Completion) (w : World) (hits : List ScoreDoc) (e : IndexEntry)
    (place : EntryPlace) : Prop :=
  ∃ hit d record name text, hits[place.1]? = some hit ∧
    (w.directory.partition (s.index.place s.groupingKey)).document? hit.doc.toNat = some d ∧
    e.primaryKey = some d.primaryKey ∧
    s.index.definition.textFields[place.2.1]? = some name ∧
    (IndexDefinition.fieldsAt record name)[place.2.2]? = some ⟨name, .text text⟩ ∧
    s.Shows w e record name text

/-- The entry is the suggestion of a value of a record, the one of that number among the values of
the field of that number. -/
def Suggested (s : Completion) (h : LoadedHit) (record : Record) (field : ℕ) (e : IndexEntry)
    (value : ℕ) : Prop :=
  ∃ name f, s.index.definition.textFields[field]? = some name ∧
    (IndexDefinition.fieldsAt record name)[value]? = some f ∧ s.suggestion? h f = some e

/-- The suggestions of a record come from its values, field by field. -/
theorem comesFrom_suggestions (h : LoadedHit) (record : Record) :
    ComesFrom (Prod.Lex (· < ·) (· < ·)) (fun e p => s.Suggested h record p.1 e p.2)
      ((s.index.definition.textFields.flatMap (IndexDefinition.fieldsAt record)).filterMap
        (s.suggestion? h)) := by
  rw [List.filterMap_flatMap, List.flatMap_def]
  refine ComesFrom.flatten (s.Suggested h record) fun i l hl => ?_
  rw [List.getElem?_map] at hl
  obtain ⟨name, hname, rfl⟩ := Option.map_eq_some_iff.1 hl
  refine (ComesFrom.filterMap (s.suggestion? h) (IndexDefinition.fieldsAt record name)).mono ?_
  rintro e j ⟨f, hf, he⟩
  exact ⟨name, f, hname, hf, he⟩

theorem marks_shown (text : String) : Marks text.toList (s.shown text).toList := by
  unfold shown
  split
  · simpa using marks_highlightSegments text.toList
  · exact .refl _

/-- The entries of a hit come from the record that is stored for it. -/
theorem comesFrom_entriesOf (hcalls : w.callsLeft = none)
    (hplace : reader.place = s.index.place s.groupingKey) {rank : ℕ} {hit : ScoreDoc}
    (hhit : hits[rank]? = some hit) {l : List IndexEntry}
    (h : s.entriesOf reader w hit = .ok l) :
    ComesFrom (Prod.Lex (· < ·) (· < ·)) (fun e p => s.StandsFor w hits e (rank, p)) l := by
  unfold entriesOf at h
  obtain ⟨loaded, hload, hl⟩ := Except.exists_of_bind_eq_ok h
  obtain ⟨d, hd, rfl, hkey, stored⟩ := loadedIn_eq_ok hcalls hload
  rcases suggestions_cases hl with ⟨fields, hfields, rfl⟩ | ⟨-, rfl⟩
  · obtain ⟨record, hrecord, belongs, rfl⟩ := Index.belongs_of_fieldsOf hfields
    refine (comesFrom_suggestions loaded record).mono ?_
    rintro e p ⟨name, f, hname, hf, he⟩
    obtain ⟨name', text, rfl, short, holds, rfl⟩ := suggestion?_eq_some_iff.1 he
    have same : name' = name := by
      obtain ⟨v, -, hv⟩ := List.mem_map.1 (List.mem_of_getElem? hf)
      exact (congrArg DocumentField.name hv).symm
    subst same
    rw [hplace] at hd
    rw [hrecord] at stored
    exact ⟨_, d, record, name', text, hhit, hd, congrArg some hkey, hname, hf,
      ⟨_, congrArg some hkey, stored⟩, belongs, short, holds.holdsTerms, _, rfl,
      marks_shown text, fun plain => by simp [shown, plain]⟩
  · exact .nil

theorem comesFrom_entriesOfAll (hcalls : w.callsLeft = none)
    (hplace : reader.place = s.index.place s.groupingKey) :
    ComesFrom Earlier (s.StandsFor w hits) (s.entriesOfAll reader w hits) := by
  refine ComesFrom.flatten (fun rank e p => s.StandsFor w hits e (rank, p)) fun rank l hl => ?_
  have hl := getElem?_untilError hl
  rw [List.getElem?_map] at hl
  obtain ⟨hit, hhit, hentries⟩ := Option.map_eq_some_iff.1 hl
  exact comesFrom_entriesOf hcalls hplace hhit hentries

theorem place_of_lookUp {d : Directory} (h : s.lookUp d = .ok (reader, hits)) :
    reader.place = s.index.place s.groupingKey := by
  rw [lookUp_eq_ranking] at h
  obtain ⟨found, hranking, h⟩ := Except.exists_of_map_eq_ok h
  cases h
  exact (ranking_eq_ok hranking).1

/-! ### Rows -/

/-- The completion with other numbers of records that may be loaded at a time. -/
def withPipelines (s : Completion) (sizes : List (PipelineOperation × ℕ)) (default : ℕ) :
    Completion :=
  let config := { s.index.records.config with
    pipelineSizes := sizes, defaultPipelineSize := default }
  { s with index := { s.index with records := { s.index.records with config } } }

/-- Whatever the index and the store hold, a completion returns nothing if its lookup fails; and the
rows of one that finds hits show texts of the records that are stored for the hits, in the order of
the hits, within a hit in that of the declared fields, and within a field in that of its values.
The rows are the same however many records are loaded at a time. -/
theorem returned_from_records (hcalls : w.callsLeft = none) (numbered : w.Numbered) :
    (∀ e, s.lookUp w.directory = .error e → s.returned w = []) ∧
      (∀ reader hits, s.lookUp w.directory = .ok (reader, hits) →
        ComesFrom Earlier (s.StandsFor w hits) (s.returned w)) ∧
      ∀ sizes default, (s.withPipelines sizes default).returned w = s.returned w := by
  have returned (s : Completion) : s.returned w = s.entries w :=
    returned_eq_entries hcalls numbered
  refine ⟨fun e hlook => ?_, fun reader hits hlook => ?_, fun sizes default => ?_⟩
  · rw [returned, entries, hlook]
  · rw [returned, entries, hlook]
    exact ((comesFrom_entriesOfAll hcalls (place_of_lookUp hlook)).drop _).window _ _
  · rw [returned, returned]
    rfl

/-- The subject of a mail is declared first, so its entry comes before that of the body. -/
theorem returned_from_records_sample :
    quickFox.returned mailWorld =
        [mailEntry "subject" "quick fox", mailEntry "body" "fox chased quick"] ∧
      ∃ hits subject body, Earlier subject body ∧
        quickFox.StandsFor mailWorld hits (mailEntry "subject" "quick fox") subject ∧
        quickFox.StandsFor mailWorld hits (mailEntry "body" "fox chased quick") body := by
  obtain ⟨failed, found, -⟩ := returned_from_records (s := quickFox) (w := mailWorld) rfl
    numbered_mailWorld
  rw [returned_quickFox] at failed found
  refine ⟨returned_quickFox, ?_⟩
  cases hlook : quickFox.lookUp mailWorld.directory with
  | error e => cases failed e hlook
  | ok result =>
    obtain ⟨reader, hits⟩ := result
    obtain ⟨places, ordered, pairs⟩ := found reader hits hlook
    cases pairs with
    | cons hsubject pairs =>
      cases pairs with
      | cons hbody pairs =>
        cases pairs
        simp only [List.pairwise_cons, List.mem_singleton, forall_eq] at ordered
        exact ⟨hits, _, _, ordered.1, hsubject, hbody⟩

end Completion

end Search

end ResumableQuery
