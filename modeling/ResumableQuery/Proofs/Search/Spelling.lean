import ResumableQuery.Proofs.Cursor.RowPages
import ResumableQuery.Proofs.Search.FieldNames
import ResumableQuery.Proofs.Search.Rekeying
import ResumableQuery.Proofs.Text.EditDistance
import ResumableQuery.Search.Spelling

/-!
# Suggestions for a word

The suggestions for a word are the terms of the live documents at a distance of at most two edits
from the word in lower case, other than that itself (`Suggestion.IsFor`).  They come in one order
(`Suggestion.Before`), each term of a field once, and a search returns those that are left within
the limits of the request (`Spelling.suggests_exactly`).
-/

namespace ResumableQuery.Search

namespace Suggestion

/-! ### The order of suggestions -/

/-- The first suggestion comes before the second: it is nearer; or as near and more frequent; or
comes first by term or, for one term, by field. -/
def Before (a b : Suggestion) : Prop :=
  a.distance < b.distance ∨ a.distance = b.distance ∧
    (b.frequency < a.frequency ∨ b.frequency = a.frequency ∧
      (a.term < b.term ∨ a.term = b.term ∧ a.field < b.field))

instance : Std.TransCmp order :=
  inferInstanceAs (Std.TransCmp (compareLex (compareLex (compareLex (compareOn distance)
    fun a b => compareOn frequency b a) (compareOn term)) (compareOn field)))

theorem order_eq_lt_iff {a b : Suggestion} : a.order b = .lt ↔ a.Before b := by
  simp only [order, Ordering.then_eq_lt, Ordering.then_eq_eq, compare_lt_iff_lt, compare_eq_iff_eq,
    Before, and_or_left, and_assoc, or_assoc]

theorem eq_of_order_eq {a b : Suggestion} (h : a.order b = .eq) : a = b := by
  simp only [order, Ordering.then_eq_eq, compare_eq_iff_eq] at h
  obtain ⟨⟨⟨hdistance, hfrequency⟩, hterm⟩, hfield⟩ := h
  cases a
  cases b
  simp_all

/-- Sorted, suggestions of which none occurs twice come in their order. -/
theorem pairwise_before_mergeSort {found : List Suggestion} (nodup : found.Nodup) :
    (found.mergeSort fun a b => (a.order b).isLE).Pairwise Before := by
  have total (a b : Suggestion) : ((a.order b).isLE || (b.order a).isLE) = true := by
    rw [← Std.OrientedCmp.isGE_eq_isLE]
    cases b.order a <;> rfl
  have sorted : (found.mergeSort fun a b => (a.order b).isLE).Pairwise
      fun a b => (a.order b).isLE = true :=
    List.pairwise_mergeSort (fun _ _ _ => Std.TransCmp.isLE_trans) total found
  have distinct := (List.mergeSort_perm found fun a b => (a.order b).isLE).nodup_iff.2 nodup
  refine (sorted.and distinct).imp fun {a b} ⟨hle, hne⟩ => order_eq_lt_iff.1 ?_
  cases horder : a.order b with
  | lt => rfl
  | eq => exact absurd (eq_of_order_eq horder) hne
  | gt =>
    rw [horder] at hle
    cases hle

theorem not_before_self (g : Suggestion) : ¬g.Before g := by
  rw [← order_eq_lt_iff, (Std.ReflCmp.compare_self : g.order g = .eq)]
  nofun

/-! ### What is suggested -/

/-- The suggestion is one for a word from a partition: a term that a live document has, with the
number of live documents that have it and of the fewest edits that make it of the word in lower case.
It is another word, and at most two edits away. -/
structure IsFor (p : Partition) (word : String) (g : Suggestion) : Prop where
  indexed : ∃ d, p.Holds d ∧ g.term ∈ d.tokens g.field
  frequency : g.frequency = p.frequency g.field g.term
  other : g.term ≠ Text.lowercase word
  distance : IsLeast {n | Text.EditsTo (Text.lowercase word).toList g.term.toList n} g.distance
  near : g.distance ≤ 2

variable {p : Partition} {word : String} {g g' : Suggestion}

theorem isFor_iff : g.IsFor p word ↔
    (g.frequency = p.frequency g.field g.term ∧ 0 < g.frequency) ∧ g.term ≠ Text.lowercase word ∧
      g.distance = Text.alignmentDistance (Text.lowercase word) g.term ∧ g.distance ≤ 2 := by
  have least := Text.alignmentDistance_isLeast (Text.lowercase word) g.term
  constructor
  · intro h
    refine ⟨⟨h.frequency, ?_⟩, h.other, h.distance.unique least, h.near⟩
    rw [h.frequency, p.frequency_pos_iff]
    exact h.indexed
  · rintro ⟨⟨frequency, pos⟩, other, distance, near⟩
    rw [frequency, p.frequency_pos_iff] at pos
    exact ⟨pos, frequency, other, distance ▸ least, near⟩

/-- A term of a field is one suggestion for a word. -/
theorem IsFor.eq (h : g.IsFor p word) (h' : g'.IsFor p word) (hfield : g.field = g'.field)
    (hterm : g.term = g'.term) : g = g' := by
  obtain ⟨field, term, distance, frequency⟩ := g
  obtain ⟨field', term', distance', frequency'⟩ := g'
  obtain rfl : field = field' := hfield
  obtain rfl : term = term' := hterm
  obtain rfl : distance = distance' := h.distance.unique h'.distance
  obtain rfl : frequency = frequency' := h.frequency.trans h'.frequency.symm
  rfl

theorem nodup_terms {found : List Suggestion} (sorted : found.Pairwise Before)
    (each : ∀ g ∈ found, g.IsFor p word) : (found.map fun g => (g.field, g.term)).Nodup := by
  refine List.pairwise_map.2 (sorted.imp_of_mem fun ha hb hbefore heq => ?_)
  obtain ⟨hfield, hterm⟩ := Prod.mk.inj heq
  rw [(each _ ha).eq (each _ hb) hfield hterm] at hbefore
  exact not_before_self _ hbefore

theorem IsFor.documents_ne_nil (h : g.IsFor p word) : p.documents ≠ [] := by
  obtain ⟨d, ⟨n, hd⟩, -⟩ := h.indexed
  intro empty
  rw [Partition.document?, empty] at hd
  cases hd

end Suggestion

namespace Spelling

variable {s : Spelling} {d : Directory} {place : Place} {g : Suggestion}

/-! ### Reading the terms -/

/-- The fields that are looked at: those that are named, or all that have terms if none is. -/
def lookedAt (s : Spelling) (reader : Reader) (d : Directory) : Except SearchError (List String) :=
  if s.fields.isEmpty then reader.fieldNames d else .ok (Ordered.keysOf s.fields)

theorem suggestions_eq {reader : Reader}
    (hreader : d.reader (s.index.place s.groupingKey) = .ok reader) :
    s.suggestions d = (do
      let found ← (← s.lookedAt reader d).mapM (s.fieldSuggestions reader d)
      return found.flatten.mergeSort fun a b => (a.order b).isLE) := by
  rw [suggestions, hreader, Except.ok_bind, lookedAt]
  split <;> rfl

theorem suggestion?_eq_some_iff {field term : String} {frequency : Nat} :
    s.suggestion? field term frequency = some g ↔ (g.field = field ∧ g.term = term ∧
      g.frequency = frequency) ∧ g.term ≠ Text.lowercase s.word ∧
        g.distance = Text.alignmentDistance (Text.lowercase s.word) g.term ∧ g.distance ≤ 2 := by
  rw [suggestion?, Option.ite_none_right_eq_some, Option.some.injEq]
  constructor
  · rintro ⟨⟨other, near⟩, rfl⟩
    dsimp only
    exact ⟨⟨rfl, rfl, rfl⟩, other, rfl, near⟩
  · rintro ⟨⟨rfl, rfl, rfl⟩, other, distance, near⟩
    rw [← distance]
    exact ⟨⟨other, near⟩, rfl⟩

section Reading

variable (indexed : (d.partition place).Indexed)
  (added : (d.partition place).documents ≠ [])

include indexed added

/-- From a field all terms near the word are suggested, each once. -/
theorem exists_fieldSuggestions (field : String) :
    ∃ found, s.fieldSuggestions ⟨place, .clear⟩ d field = .ok found ∧ found.Nodup ∧
      ∀ g, g ∈ found ↔ g.field = field ∧ g.IsFor (d.partition place) s.word := by
  obtain ⟨terms, hterms, increasing, mem⟩ := indexed.exists_terms field
  rw [if_neg added] at hterms
  have read : (⟨place, .clear⟩ : Reader).terms d field = .ok terms := hterms
  refine ⟨_, by rw [fieldSuggestions, read]; rfl, ?_, fun g => ?_⟩
  · refine List.Pairwise.filterMap _ (fun e e' hlt g hg g' hg' => ?_) increasing
    rintro rfl
    have hterm := (suggestion?_eq_some_iff.1 hg).1.2.1
    have hterm' := (suggestion?_eq_some_iff.1 hg').1.2.1
    exact Ordered.ne_of_compare hlt nofun (hterm.symm.trans hterm')
  · rw [List.mem_filterMap, Suggestion.isFor_iff]
    constructor
    · rintro ⟨⟨term, frequency⟩, hmem, hg⟩
      obtain ⟨⟨rfl, rfl, rfl⟩, near⟩ := suggestion?_eq_some_iff.1 hg
      exact ⟨rfl, (mem _ _).1 hmem, near⟩
    · rintro ⟨rfl, hfrequency, near⟩
      exact ⟨(g.term, g.frequency), (mem _ _).2 hfrequency,
        suggestion?_eq_some_iff.2 ⟨⟨rfl, rfl, rfl⟩, near⟩⟩

theorem exists_lookedAt : ∃ names,
    s.lookedAt ⟨place, .clear⟩ d = .ok names ∧ names.Nodup ∧
      ∀ g : Suggestion, g.IsFor (d.partition place) s.word →
        (g.field ∈ names ↔ s.fields = [] ∨ g.field ∈ s.fields) := by
  unfold lookedAt
  by_cases hfields : s.fields = []
  · have increasing : Ordered.Increasing ((d.partition place).postings.map (·.1)) :=
      List.pairwise_map.2 (indexed.wellFormed.sorted.imp id)
    refine ⟨(d.partition place).postings.map (·.1), ?_, increasing.nodup, fun g h => ?_⟩
    · rw [hfields]
      exact if_neg (mt List.isEmpty_iff.1 added)
    · obtain ⟨x, hx, hterm⟩ := h.indexed
      rw [indexed.wellFormed.mem_iff_hasField]
      exact iff_of_true (indexed.hasField_of_carries ⟨x, hx, List.ne_nil_of_mem hterm⟩)
        (.inl hfields)
  · refine ⟨_, if_neg (mt List.isEmpty_iff.1 hfields), (Ordered.increasing_keysOf _).nodup,
      fun g _ => ?_⟩
    rw [Ordered.mem_keysOf, or_iff_right hfields]

/-- The suggestions for a word, in their order. -/
theorem exists_suggestions
    (hreader : d.reader (s.index.place s.groupingKey) = .ok ⟨place, .clear⟩) :
    ∃ found, s.suggestions d = .ok found ∧ found.Pairwise Suggestion.Before ∧
      ∀ g, g ∈ found ↔
        (s.fields = [] ∨ g.field ∈ s.fields) ∧ g.IsFor (d.partition place) s.word := by
  obtain ⟨names, hnames, nodup_names, mem_names⟩ := exists_lookedAt (s := s) indexed added
  choose found hfound nodup_found mem_found using
    exists_fieldSuggestions (s := s) indexed added
  have read : names.mapM (s.fieldSuggestions ⟨place, .clear⟩ d) = .ok (names.map found) := by
    rw [funext hfound]
    exact List.mapM_pure
  refine ⟨(names.map found).flatten.mergeSort fun a b => (a.order b).isLE, ?_,
    Suggestion.pairwise_before_mergeSort ?_, fun g => ?_⟩
  · rw [suggestions_eq hreader, hnames, Except.ok_bind, read]
    rfl
  · rw [← List.flatMap_def, List.nodup_flatMap]
    refine ⟨fun field _ => nodup_found field, nodup_names.imp fun hne g hg hg' => hne ?_⟩
    exact ((mem_found _ g).1 hg).1.symm.trans ((mem_found _ g).1 hg').1
  · rw [List.mem_mergeSort, ← List.flatMap_def, List.mem_flatMap]
    constructor
    · rintro ⟨field, hfield, hg⟩
      obtain ⟨rfl, h⟩ := (mem_found field g).1 hg
      exact ⟨(mem_names g h).1 hfield, h⟩
    · rintro ⟨hfield, h⟩
      exact ⟨g.field, (mem_names g h).2 hfield, (mem_found g.field g).2 ⟨rfl, h⟩⟩

end Reading

/-- Where no document was ever put in, nothing can be read. -/
theorem suggestions_eq_notFound (written : d.Written)
    (empty : (d.partition (s.index.place s.groupingKey)).documents = []) :
    s.suggestions d = .error (d.partition (s.index.place s.groupingKey)).notFound := by
  obtain hreader | ⟨hreader, hpartition⟩ := written.reader_cases (s.index.place s.groupingKey)
  · have names : (⟨s.index.place s.groupingKey, .clear⟩ : Reader).fieldNames d =
        .error (d.partition (s.index.place s.groupingKey)).notFound :=
      if_pos (List.isEmpty_iff.2 empty)
    have terms (field : String) : (⟨s.index.place s.groupingKey, .clear⟩ : Reader).terms d field =
        .error (d.partition (s.index.place s.groupingKey)).notFound :=
      if_pos (List.isEmpty_iff.2 empty)
    rw [suggestions_eq hreader, lookedAt]
    split
    · rw [names]
      rfl
    · rename_i hfields
      obtain ⟨field, hfield⟩ := List.exists_mem_of_ne_nil _ (mt List.isEmpty_iff.2 hfields)
      obtain ⟨first, rest, hkeys⟩ := List.exists_cons_of_ne_nil
        (List.ne_nil_of_mem (Ordered.mem_keysOf.2 hfield))
      rw [hkeys, Except.ok_bind, List.mapM_cons, fieldSuggestions, terms]
      rfl
  · rw [suggestions, hreader, hpartition]
    rfl

/-! ### The rows of a search -/

/-- A request leaves out as many rows as it says, and returns as many as it says, or all others if
it says zero. -/
theorem fill_withLimit (skip limit : Nat) (rows : List α) :
    ((ScanProperties.forward.withSkip skip).withLimit limit).fill rows =
      if limit = 0 then rows else rows.take limit := by
  have size : ((ScanProperties.forward.withSkip skip).withLimit limit).pageSize =
      ScanProperties.limitOf limit := ScanProperties.pageSize_of_untimed rfl
  by_cases h : limit = 0
  · rw [if_pos h, ScanProperties.fill_of_none (size.trans (if_pos h))]
  · rw [if_neg h, ScanProperties.fill_of_some (size.trans (if_neg h))]

/-- What comes of a search is decided when its first row is asked for. -/
theorem collect_rows (s : Spelling) (w : World) : (Handle.new s.rows).collect w =
    (Handle.new <| match s.suggestions w.directory with
      | .ok found => (Cursor.ofList (found.map s.entry)).skipThenLimit s.limits .start
      | .error (.indexNotFound _ _) => .exhausted
      | .error e => .fail (s.failure e)).collect w := rfl

theorem collect_rows_of_ok {found : List Suggestion} {w : World}
    (h : s.suggestions w.directory = .ok found) (hlimit : s.limits.limit ≠ some 0) :
    ∃ ending, ((Handle.new s.rows).collect w).2 =
      .ok (s.limits.fill ((found.map s.entry).drop s.limits.skip), ending) := by
  obtain ⟨w', u, hcollect⟩ := Cursor.collect_ofList (found.map s.entry) hlimit w
  rw [collect_rows, h]
  exact ⟨_, congrArg Prod.snd hcollect⟩

theorem collect_rows_of_notFound {p : Partition} {w : World}
    (h : s.suggestions w.directory = .error p.notFound) :
    ((Handle.new s.rows).collect w).2 = .ok ([], .sourceExhausted, .done) := by
  rw [collect_rows, h]
  rfl

theorem new_of_not_blank (index : Index) {word : String} (fields : List String)
    (groupingKey : Tuple) (request : ScanProperties)
    (hword : ∃ c ∈ word.toList, Text.isBlank c = false) :
    new index word fields groupingKey request = .ok ⟨index, word, fields, groupingKey,
      (ScanProperties.forward.withSkip request.skip).withLimit (request.limit.getD 0)⟩ := by
  obtain ⟨c, hc, hblank⟩ := hword
  refine if_neg fun hall => ?_
  rw [List.all_eq_true.1 hall c hc] at hblank
  cases hblank

/-- For a word with a character that is not blank, a search finds all suggestions for it from the
fields that were named, or from all if none was, and nothing else.  They come in their order, each
term of a field once, and what is returned are the entries of those that the request neither leaves
out nor has no room for.  From a partition that was never written, nothing is returned. -/
theorem suggests_exactly (index : Index) (word : String) (fields : List String)
    (groupingKey : Tuple) (request : ScanProperties) {w : World}
    (hword : ∃ c ∈ word.toList, Text.isBlank c = false) (written : w.directory.Written) :
    let p := w.directory.partition (index.place groupingKey)
    ∃ s found, new index word fields groupingKey request = .ok s ∧
      (∀ g, g ∈ found ↔ (fields = [] ∨ g.field ∈ fields) ∧ g.IsFor p word) ∧
      found.Pairwise Suggestion.Before ∧
      (found.map fun g => (g.field, g.term)).Nodup ∧
      (let limit := request.limit.getD 0
       let kept := (found.drop request.skip).map s.entry
       ∃ ending, ((Handle.new s.rows).collect w).2 =
         .ok (if limit = 0 then kept else kept.take limit, ending)) ∧
      (p.documents = [] →
        found = [] ∧ ((Handle.new s.rows).collect w).2 = .ok ([], .sourceExhausted, .done)) := by
  intro p
  let s : Spelling := ⟨index, word, fields, groupingKey,
    (ScanProperties.forward.withSkip request.skip).withLimit (request.limit.getD 0)⟩
  have hnew : new index word fields groupingKey request = .ok s :=
    new_of_not_blank index fields groupingKey request hword
  by_cases hempty : p.documents = []
  · have returned := collect_rows_of_notFound (suggestions_eq_notFound (s := s) written hempty)
    refine ⟨s, [], hnew, fun g => iff_of_false List.not_mem_nil fun h =>
      h.2.documents_ne_nil hempty, .nil, .nil, ⟨(.sourceExhausted, .done), ?_⟩,
      fun _ => ⟨rfl, returned⟩⟩
    rw [returned, List.drop_nil, List.map_nil, List.take_nil, ite_self]
  · have hreader : w.directory.reader (s.index.place s.groupingKey) =
        .ok ⟨index.place groupingKey, .clear⟩ := by
      obtain hreader | ⟨-, hpartition⟩ := written.reader_cases (index.place groupingKey)
      · exact hreader
      · exact absurd (congrArg Partition.documents hpartition) hempty
    obtain ⟨found, hfound, sorted, mem⟩ :=
      exists_suggestions (s := s) (written.indexed _) hempty hreader
    obtain ⟨ending, returned⟩ := collect_rows_of_ok hfound (Cursor.limitOf_ne_zero _)
    refine ⟨s, found, hnew, mem, sorted, Suggestion.nodup_terms sorted fun g hg => ((mem g).1 hg).2,
      ⟨ending, ?_⟩, fun h => absurd h hempty⟩
    rw [returned, fill_withLimit, List.map_drop]
    rfl

/-- A world in which a note with two words is all that is indexed. -/
def sampleWorld : World := { World.empty with directory := Index.boxedDirectory }

/-- The word with one letter other than the one that is looked up is suggested. -/
theorem suggests_exactly_sample :
    (∃ c ∈ "Fax".toList, Text.isBlank c = false) ∧ sampleWorld.directory.Written ∧
      ∃ s, ∃ found : List Suggestion,
        new Index.boxedIndex "Fax" [] [.text "in"] (ScanProperties.forward.withLimit 1) = .ok s ∧
        ⟨"title", "fox", 1, 1⟩ ∈ found ∧ found.Pairwise Suggestion.Before ∧
        ∃ ending, ((Handle.new s.rows).collect sampleWorld).2 =
          .ok ((found.map s.entry).take 1, ending) := by
  have letter : ∃ c ∈ "Fax".toList, Text.isBlank c = false := ⟨'F', by decide, by decide⟩
  have written : sampleWorld.directory.Written := Index.written_boxedDirectory
  obtain ⟨s, found, hnew, mem, sorted, -, returned, -⟩ := suggests_exactly Index.boxedIndex "Fax" []
    [.text "in"] (ScanProperties.forward.withLimit 1) letter written
  have near : Suggestion.IsFor (sampleWorld.directory.partition ("notes", [.text "in"])) "Fax"
      ⟨"title", "fox", 1, 1⟩ := Suggestion.isFor_iff.2 (by decide +kernel)
  exact ⟨letter, written, s, found, hnew, (mem _).2 ⟨.inl rfl, near⟩, sorted, returned⟩

end Spelling

end ResumableQuery.Search
