import ResumableQuery.Proofs.Except
import ResumableQuery.Proofs.Search.Completion
import ResumableQuery.Proofs.Search.Phrases

/-!
# Completion of a phrase in quotes

A document is a hit for a phrase in quotes if one of its fields holds the phrase.  What is suggested
for a hit is every indexed text of its record that holds the words of the phrase, in whatever order
and in whatever field (`Completion.returned_of_quoted`).  A text that is suggested holds the phrase
itself if the document has no other text.
-/

namespace ResumableQuery.Search

theorem Reader.document_of_primaryKey {r : Reader} {d : Directory} {doc : UInt64}
    {primaryKey : Tuple} (h : r.primaryKey d doc = .ok primaryKey) :
    ∃ stored, (d.partition r.place).document? doc.toNat = some stored ∧
      stored.primaryKey = primaryKey := by
  rw [Reader.primaryKey, ask] at h
  split at h
  · cases h
  · rw [Partition.primaryKey] at h
    split at h
    · rename_i stored hstored
      exact ⟨stored, hstored, Except.ok.inj h⟩
    · cases h

namespace Completion

variable {s : Completion} {w : World} {reader : Reader} {hits : List ScoreDoc}

theorem ranking_eq_ok {d : Directory} (h : s.ranking d = .ok (reader, hits)) :
    reader.place = s.index.place s.groupingKey ∧
      hits = (d.partition (s.index.place s.groupingKey)).ranked
        (s.query ((d.partition (s.index.place s.groupingKey)).postings.map (·.1))) := by
  rw [ranking, Directory.reader] at h
  split at h
  · rename_i shelf hshelf
    let r : Reader := ⟨s.index.place s.groupingKey, shelf.faults⟩
    have fieldNames : ∀ fields, r.fieldNames d = .ok fields →
        fields = (d.partition r.place).postings.map (·.1) := by
      intro fields hfields
      rw [Reader.fieldNames, Reader.ask] at hfields
      split at hfields
      · cases hfields
      · rw [Partition.fieldNames] at hfields
        split at hfields
        · cases hfields
        · exact (Except.ok.inj hfields).symm
    change (r.fieldNames d >>= fun fields => r.search d (s.query fields) none 0 >>= fun _ =>
      Except.ok (r, (d.partition r.place).ranked (s.query fields))) = _ at h
    obtain ⟨fields, hfields, h⟩ := Except.exists_of_bind_eq_ok h
    obtain ⟨top, -, h⟩ := Except.exists_of_bind_eq_ok h
    obtain ⟨hreader, hhits⟩ := Prod.mk.inj (Except.ok.inj h)
    rw [fieldNames fields hfields] at hhits
    exact ⟨hreader ▸ rfl, hhits.symm⟩
  · cases h

/-! ### Rows -/

/-- A row is an entry of a hit. -/
theorem exists_hit_of_mem_returned (hcalls : w.callsLeft = none) (numbered : w.Numbered)
    {e : IndexEntry} (h : e ∈ s.returned w) :
    ∃ reader hits, s.ranking w.directory = .ok (reader, hits) ∧
      ∃ hit ∈ hits, ∃ l, s.entriesOf reader w hit = .ok l ∧ e ∈ l := by
  rw [returned_eq_entries hcalls numbered, entries_eq] at h
  have h := List.mem_of_mem_drop (s.limits.mem_of_mem_window h)
  rw [entriesOfBest] at h
  split at h
  · rename_i reader hits hranking
    obtain ⟨l, hl, he⟩ := List.mem_flatten.1 h
    obtain ⟨hit, hhit, hentries⟩ := List.mem_map.1 (mem_of_mem_untilError hl)
    exact ⟨reader, hits, hranking, hit, List.mem_of_mem_take hhit, l, hentries, he⟩
  · cases h

/-! ### Entries -/

/-- The text is one of the indexed values of the record that is stored now for a document.  The
record is still of the partition, and the text is not too long. -/
def Names (s : Completion) (w : World) (d : StoredDocument) (name text : String) : Prop :=
  ∃ record fields, (s.index.records.load d.primaryKey w).2 = .ok (some record) ∧
    s.index.fieldsOf (some record) = .ok (some (s.groupingKey, fields)) ∧
    ⟨name, .text text⟩ ∈ fields ∧
    text.toList.length ≤ s.index.records.config.autoCompleteTextLimit

/-- A text as it is suggested, with markers if they are asked for. -/
def shown (s : Completion) (text : String) : String :=
  if s.highlight then
    String.ofList ((segments text.toList).flatMap (highlightSegment s.tokenSet s.wanted.unfinished))
  else text

/-- The entry of a text of a document. -/
def entry (s : Completion) (d : StoredDocument) (score : Binary32) (name text : String) :
    IndexEntry :=
  ⟨s.index.name, s.groupingKey ++ [.text name, .text (s.shown text)], [.float score.widen],
    some d.primaryKey⟩

/-- The entry is of a text of a document, and the text holds the words. -/
def Offers (s : Completion) (w : World) (d : StoredDocument) (score : Binary32) (e : IndexEntry) :
    Prop :=
  ∃ name text, s.Names w d name text ∧
    HoldsWords s.wanted.complete s.wanted.unfinished (tokenTexts text) ∧
    e = s.entry d score name text

theorem holdsWords_tokenSet {tokens : List String} :
    HoldsWords s.tokenSet s.wanted.unfinished tokens ↔
      HoldsWords s.wanted.complete s.wanted.unfinished tokens := by
  simp only [HoldsWords, tokenSet, Ordered.mem_keysOf]

theorem suggestion?_text (h : LoadedHit) (name text : String) :
    s.suggestion? h ⟨name, .text text⟩ =
      if text.toList.length ≤ s.index.records.config.autoCompleteTextLimit ∧
          satisfies s.tokenSet s.wanted.unfinished text = true then
        some ⟨s.index.name, s.groupingKey ++ [.text name, .text (s.shown text)],
          [.float h.hit.score.widen], some h.primaryKey⟩
      else none := by
  have searched : searchAll text s.tokenSet s.wanted.unfinished s.highlight =
      if satisfies s.tokenSet s.wanted.unfinished text then some (s.shown text) else none := by
    rw [searchAll, shown]
    split
    · split <;> rfl
    · rfl
  show (if _ then searchAll text s.tokenSet s.wanted.unfinished s.highlight >>= _ else none) = _
  rw [searched]
  by_cases holds : satisfies s.tokenSet s.wanted.unfinished text = true
  · simp only [holds, and_true]
    rfl
  · rw [if_neg holds]
    exact (ite_self none).trans (if_neg fun hboth => holds hboth.2).symm

theorem suggestion?_eq_some_iff {h : LoadedHit} {f : DocumentField} {e : IndexEntry} :
    s.suggestion? h f = some e ↔ ∃ name text, f = ⟨name, .text text⟩ ∧
      text.toList.length ≤ s.index.records.config.autoCompleteTextLimit ∧
      HoldsWords s.wanted.complete s.wanted.unfinished (tokenTexts text) ∧
      e = ⟨s.index.name, s.groupingKey ++ [.text name, .text (s.shown text)],
        [.float h.hit.score.widen], some h.primaryKey⟩ := by
  simp only [← holdsWords_tokenSet (s := s), ← satisfies_iff]
  obtain ⟨name, value⟩ := f
  cases value with
  | text text =>
    rw [suggestion?_text]
    constructor
    · intro h
      split at h
      · rename_i hboth
        exact ⟨name, text, rfl, hboth.1, hboth.2, (Option.some.inj h).symm⟩
      · cases h
    · rintro ⟨name', text', heq, short, holds, rfl⟩
      cases heq
      exact if_pos ⟨short, holds⟩
  | _ =>
    refine ⟨nofun, ?_⟩
    rintro ⟨name', text, heq, -⟩
    cases heq

theorem loadedIn_eq_ok (hcalls : w.callsLeft = none) {hit : ScoreDoc} {h : LoadedHit}
    (hload : s.loadedIn reader w hit = .ok h) :
    ∃ d, (w.directory.partition reader.place).document? hit.doc.toNat = some d ∧
      h.hit = hit ∧ h.primaryKey = d.primaryKey ∧
      (s.index.records.load d.primaryKey w).2 = .ok h.record := by
  rw [loadedIn] at hload
  cases hfound : (w.lookUp (s.lookup reader hit)).2 with
  | error e =>
    rw [hfound] at hload
    cases hload
  | ok found =>
    obtain ⟨primaryKey, value⟩ := found
    obtain ⟨hkey, hvalue⟩ := (World.lookUp_eq_ok_iff hcalls).1 hfound
    obtain ⟨d, hd, rfl⟩ := Reader.document_of_primaryKey hkey
    have stored : (s.index.records.load d.primaryKey w).2 = RecordStore.decodeFound value := by
      show RecordStore.decodeFound (w.get _ _).2 = _
      rw [World.get_eq_get? hcalls, hvalue]
      rfl
    rw [hfound, load] at hload
    cases hrecord : RecordStore.decodeFound value with
    | error e =>
      rw [hrecord] at hload
      cases hload
    | ok record =>
      rw [hrecord] at hload stored
      cases hload
      exact ⟨d, hd, rfl, rfl, stored⟩

/-- The suggestions of a loaded hit are those of its indexed values if its record is still of the
partition, and there are none otherwise. -/
theorem suggestions_cases {h : LoadedHit} {l : List IndexEntry} (hl : s.suggestions h = .ok l) :
    (∃ fields, s.index.fieldsOf h.record = .ok (some (s.groupingKey, fields)) ∧
        l = fields.filterMap (s.suggestion? h)) ∨
      (∀ fields, s.index.fieldsOf h.record ≠ .ok (some (s.groupingKey, fields))) ∧ l = [] := by
  rw [suggestions] at hl
  obtain ⟨found, hfields, hl⟩ := Except.exists_of_bind_eq_ok hl
  rw [hfields]
  cases found with
  | none => exact .inr ⟨by simp, (Except.ok.inj hl).symm⟩
  | some found =>
    obtain ⟨groupingKey, fields⟩ := found
    change Except.ok (if groupingKey == s.groupingKey then _ else _) = Except.ok l at hl
    by_cases hkey : groupingKey = s.groupingKey
    · subst hkey
      rw [if_pos (beq_self_eq_true _)] at hl
      exact .inl ⟨fields, rfl, (Except.ok.inj hl).symm⟩
    · rw [if_neg (mt beq_iff_eq.1 hkey)] at hl
      exact .inr ⟨by simp [hkey], (Except.ok.inj hl).symm⟩

theorem suggestions_eq_ok {h : LoadedHit} {l : List IndexEntry} (hl : s.suggestions h = .ok l)
    (e : IndexEntry) : e ∈ l ↔
      ∃ fields, s.index.fieldsOf h.record = .ok (some (s.groupingKey, fields)) ∧
        ∃ f ∈ fields, s.suggestion? h f = some e := by
  rcases suggestions_cases hl with ⟨fields, hfields, rfl⟩ | ⟨hnone, rfl⟩
  · simp [hfields, List.mem_filterMap]
  · simp [hnone]

/-- The entries of a hit are those of the texts of its record that hold the words. -/
theorem entriesOf_eq_ok (hcalls : w.callsLeft = none) {hit : ScoreDoc} {l : List IndexEntry}
    (h : s.entriesOf reader w hit = .ok l) :
    ∃ d, (w.directory.partition reader.place).document? hit.doc.toNat = some d ∧
      ∀ e, e ∈ l ↔ s.Offers w d hit.score e := by
  rw [entriesOf] at h
  obtain ⟨loaded, hload, hl⟩ := Except.exists_of_bind_eq_ok h
  obtain ⟨d, hd, rfl, hkey, stored⟩ := loadedIn_eq_ok hcalls hload
  refine ⟨d, hd, fun e => (suggestions_eq_ok hl e).trans ?_⟩
  have entry (name text : String) : s.entry d loaded.hit.score name text =
      ⟨s.index.name, s.groupingKey ++ [.text name, .text (s.shown text)],
        [.float loaded.hit.score.widen], some loaded.primaryKey⟩ := by
    rw [hkey]
    rfl
  constructor
  · rintro ⟨fields, hfields, f, hf, hsuggested⟩
    obtain ⟨name, text, rfl, short, holds, rfl⟩ := suggestion?_eq_some_iff.1 hsuggested
    cases hrecord : loaded.record with
    | none =>
      rw [hrecord] at hfields
      cases hfields
    | some record =>
      rw [hrecord] at hfields stored
      exact ⟨name, text, ⟨record, fields, stored, hfields, hf, short⟩, holds,
        (entry name text).symm⟩
  · rintro ⟨name, text, ⟨record, fields, hrecord, hfields, hf, short⟩, holds, rfl⟩
    have same : loaded.record = some record := Except.ok.inj (stored.symm.trans hrecord)
    rw [same]
    exact ⟨fields, hfields, _, hf,
      suggestion?_eq_some_iff.2 ⟨name, text, rfl, short, holds, entry name text⟩⟩

/-! ### Phrases in quotes -/

/-- The phrase is held by a field of the document. -/
def Finds (s : Completion) (p : Partition) (d : StoredDocument) : Prop :=
  (s.wanted.complete ≠ [] ∨ s.wanted.unfinished ≠ none) ∧
    ∃ field ∈ p.postings.map (·.1),
      HoldsPhrase s.wanted.complete s.wanted.unfinished (d.tokens field)

/-- A document whose only text is the one that was found holds the phrase in that text. -/
theorem Finds.holdsPhrase {p : Partition} {primaryKey : Tuple} {name text : String}
    (h : s.Finds p (.ofTexts primaryKey [(name, text)])) :
    HoldsPhrase s.wanted.complete s.wanted.unfinished (tokenTexts text) := by
  obtain ⟨wanted, field, -, hholds⟩ := h
  rw [StoredDocument.tokens_ofTexts, List.filter_cons, List.filter_nil] at hholds
  by_cases hname : name = field
  · rw [hname, if_pos (beq_self_eq_true field), List.flatMap_singleton] at hholds
    exact hholds
  · rw [if_neg (mt beq_iff_eq.1 hname)] at hholds
    obtain ⟨front, back, hnil, hword⟩ := hholds
    obtain ⟨hleft, rfl⟩ := List.append_eq_nil_iff.1 hnil.symm
    obtain ⟨-, hterms⟩ := List.append_eq_nil_iff.1 hleft
    obtain ⟨start, hstart⟩ := Option.ne_none_iff_exists'.1 (wanted.resolve_left fun h => h hterms)
    obtain ⟨word, hmem, -⟩ := hword start hstart
    cases hmem

/-- The hits are the documents that hold the phrase. -/
theorem mem_hits_iff (quoted : s.isQuoted = true) {p : Partition}
    (hp : w.directory.partition (s.index.place s.groupingKey) = p)
    (fits : p.documents.length ≤ 2 ^ 64) (hranking : s.ranking w.directory = .ok (reader, hits))
    {n : Nat} {d : StoredDocument} (hd : p.document? n = some d) :
    (∃ hit ∈ hits, hit.doc.toNat = n) ↔ s.Finds p d := by
  obtain ⟨-, rfl⟩ := ranking_eq_ok hranking
  have query (fields : List String) :
      s.query fields = .anyPhrase fields s.wanted.complete s.wanted.unfinished := by
    rw [Completion.query, quoted, if_pos rfl]
  rw [hp, query, Finds, ← Partition.isSome_score_anyPhrase (p := p)]
  constructor
  · rintro ⟨hit, hhit, rfl⟩
    obtain ⟨d', hd', hscore, -⟩ := (Partition.mem_ranked fits).1 hhit
    obtain rfl : d = d' := Option.some.inj (hd.symm.trans hd')
    exact Option.isSome_of_eq_some hscore
  · intro hscore
    obtain ⟨score, hscore⟩ := Option.isSome_iff_exists.1 hscore
    have number : (UInt64.ofNat n).toNat = n := by
      have := Partition.lt_length_of_document? hd
      rw [UInt64.toNat_ofNat']
      omega
    refine ⟨⟨score, UInt64.ofNat n, 0⟩, (Partition.mem_ranked fits).2 ⟨d, ?_, hscore, rfl⟩, number⟩
    rw [number]
    exact hd

/-- For a phrase in quotes, a row names a text of a record whose document holds the phrase in one of
its fields.  The text itself need not hold the phrase, but it holds the words of it; if it is the
only text of the document, it does hold the phrase.  The other way round, all documents that hold
the phrase are hits, and a hit has an entry for every text of its record that holds the words. -/
theorem returned_of_quoted (quoted : s.isQuoted = true) {p : Partition}
    (hp : w.directory.partition (s.index.place s.groupingKey) = p)
    (fits : p.documents.length ≤ 2 ^ 64) (hcalls : w.callsLeft = none) (numbered : w.Numbered) :
    (∀ e ∈ s.returned w, ∃ d score name text, p.Holds d ∧ s.Finds p d ∧ s.Names w d name text ∧
        HoldsWords s.wanted.complete s.wanted.unfinished (tokenTexts text) ∧
        e = s.entry d score name text ∧
        (d = .ofTexts d.primaryKey [(name, text)] →
          HoldsPhrase s.wanted.complete s.wanted.unfinished (tokenTexts text))) ∧
      ∀ reader hits, s.ranking w.directory = .ok (reader, hits) →
        (∀ n d, p.document? n = some d → ((∃ hit ∈ hits, hit.doc.toNat = n) ↔ s.Finds p d)) ∧
        ∀ hit ∈ hits, ∀ l, s.entriesOf reader w hit = .ok l →
          ∃ d, p.document? hit.doc.toNat = some d ∧ ∀ e, e ∈ l ↔ s.Offers w d hit.score e := by
  have place {reader : Reader} {hits : List ScoreDoc}
      (hranking : s.ranking w.directory = .ok (reader, hits)) :
      w.directory.partition reader.place = p := by
    rw [(ranking_eq_ok hranking).1, hp]
  refine ⟨fun e he => ?_, fun reader hits hranking => ⟨fun n d hd => ?_, fun hit _ l hl => ?_⟩⟩
  · obtain ⟨reader, hits, hranking, hit, hhit, l, hl, hmem⟩ :=
      exists_hit_of_mem_returned hcalls numbered he
    obtain ⟨d, hd, hentries⟩ := entriesOf_eq_ok hcalls hl
    rw [place hranking] at hd
    obtain ⟨name, text, names, holds, rfl⟩ := (hentries e).1 hmem
    have finds : s.Finds p d := (mem_hits_iff quoted hp fits hranking hd).1 ⟨hit, hhit, rfl⟩
    refine ⟨d, hit.score, name, text, ⟨_, hd⟩, finds, names, holds, rfl, fun only => ?_⟩
    rw [only] at finds
    exact finds.holdsPhrase
  · exact mem_hits_iff quoted hp fits hranking hd
  · rw [← place hranking]
    exact entriesOf_eq_ok hcalls hl

/-! ### Words in another order -/

def mailIndex : Index :=
  ⟨⟨"mails", "mail", ["subject", "body"], .empty, true⟩, ⟨"main", [], .standard⟩⟩

/-- A mail has the words of a phrase in its subject and, in another order, in its body. -/
def mailWorld : World :=
  mailIndex.withRecord World.empty ⟨"mail", [.int 1],
    [("body", .scalar (.text "fox chased quick")), ("subject", .scalar (.text "quick fox"))]⟩

def mailPartition : Partition := mailWorld.directory.partition ("mails", [])

def quickFox : Completion := ⟨mailIndex, "\"quick fox \"", [], false, 10000, 0⟩

def mailEntry (name text : String) : IndexEntry :=
  ⟨"mails", [.text name, .text text], [.float ⟨0x4000000000000000⟩], some [.int 1]⟩

theorem numbered_mailWorld : mailWorld.Numbered :=
  World.numbered_of_nil (List.isEmpty_iff.1 (by decide +kernel))
    (List.isEmpty_iff.1 (by decide +kernel))

theorem returned_quickFox : quickFox.returned mailWorld =
    [mailEntry "subject" "quick fox", mailEntry "body" "fox chased quick"] := by
  have fields : mailPartition.postings.map (·.1) = ["body", "subject"] := by decide +kernel
  have matching : mailPartition.matching (quickFox.query ["body", "subject"]) =
      [⟨⟨0x40000000⟩, 0, 0⟩] := by decide +kernel
  have ranking : quickFox.ranking mailWorld.directory =
      .ok (⟨("mails", []), .clear⟩, [⟨⟨0x40000000⟩, 0, 0⟩]) := by
    rw [ranking_eq_ranked _ (p := mailPartition) rfl (by decide +kernel) (by decide +kernel),
      fields, Partition.ranked, matching, List.mergeSort_singleton]
    rfl
  have entries : quickFox.entriesOf ⟨("mails", []), .clear⟩ mailWorld ⟨⟨0x40000000⟩, 0, 0⟩ =
      .ok [mailEntry "subject" "quick fox", mailEntry "body" "fox chased quick"] :=
    Except.toOption_eq_some_iff.1 (by decide +kernel)
  rw [returned_eq rfl numbered_mailWorld (by decide) (by decide), entriesOfBest, ranking]
  show (((untilError [quickFox.entriesOf _ _ _]).flatten).drop 0).take 10000 = _
  rw [entries]
  rfl

/-- The body of the mail is suggested. -/
theorem returned_of_quoted_sample :
    mailEntry "body" "fox chased quick" ∈ quickFox.returned mailWorld ∧
      ∃ d, mailPartition.Holds d ∧ quickFox.Finds mailPartition d ∧
        quickFox.Names mailWorld d "body" "fox chased quick" ∧
        HoldsWords ["quick", "fox"] none (tokenTexts "fox chased quick") := by
  have hmem : mailEntry "body" "fox chased quick" ∈ quickFox.returned mailWorld := by
    rw [returned_quickFox]
    exact List.mem_cons_of_mem _ List.mem_cons_self
  obtain ⟨rows, -⟩ := returned_of_quoted (s := quickFox) (w := mailWorld) (p := mailPartition)
    (by decide) rfl (by decide +kernel) rfl numbered_mailWorld
  obtain ⟨d, score, name, text, holds, finds, names, words, heq, -⟩ := rows _ hmem
  have key : [TupleValue.text "body", .text "fox chased quick"] = [.text name, .text text] :=
    congrArg IndexEntry.key heq
  cases key
  have wanted : quickFox.wanted = ⟨["quick", "fox"], none⟩ := by decide +kernel
  rw [wanted] at words
  exact ⟨hmem, d, holds, finds, names, words⟩

/-- The body does not hold the phrase in quotes for which it is suggested. -/
theorem suggested_without_phrase : quickFox.isQuoted = true ∧
    ¬∀ e ∈ quickFox.returned mailWorld, ∀ name text,
      e.key = quickFox.groupingKey ++ [.text name, .text text] →
      HoldsPhrase quickFox.wanted.complete quickFox.wanted.unfinished (tokenTexts text) := by
  refine ⟨by decide, fun claimed => ?_⟩
  have hmem : mailEntry "body" "fox chased quick" ∈ quickFox.returned mailWorld := by
    rw [returned_quickFox]
    exact List.mem_cons_of_mem _ List.mem_cons_self
  obtain ⟨front, back, htokens, -⟩ := claimed _ hmem "body" "fox chased quick" rfl
  have consecutive : quickFox.wanted.complete <:+: tokenTexts "fox chased quick" :=
    ⟨front, back, htokens.symm⟩
  rw [← Partition.countWindows_ne_zero_iff (by decide +kernel)] at consecutive
  exact consecutive (by decide +kernel)

end Completion

end ResumableQuery.Search
