import ResumableQuery.Proofs.Except
import ResumableQuery.Proofs.Search.Completion

/-!
# Pages of a completion

A caller of a completion pages by running it again with more rows left out.  The rows that are
left out and returned are entries, but their number bounds the hits that are looked up, and a hit
may have no entry: its record is gone, its texts are too long, or the typed words are spread over
several values of a field.  So a page is cut from the entries of the best hits only, as many hits as
rows are left out and asked for (`Completion.page_of_rerun`).  No page returns what another one
does, and a page is complete where each of these hits has an entry; otherwise its last rows may be
lost.
-/

namespace ResumableQuery.Search.Completion

variable {s : Completion} {w : World} {reader : Reader} {hits : List ScoreDoc}

/-! ### Entries of the best hits -/

theorem entriesOfAll_mono {hits' : List ScoreDoc} (h : hits <+: hits') :
    s.entriesOfAll reader w hits <+: s.entriesOfAll reader w hits' := by
  obtain ⟨rest, hrest⟩ := untilError_prefix (h.map (s.entriesOf reader w))
  exact ⟨rest.flatten, by rw [entriesOfAll, entriesOfAll, ← hrest, List.flatten_append]⟩

theorem entriesOfBest_mono {m n : Nat} (h : m ≤ n) :
    s.entriesOfBest w m <+: s.entriesOfBest w n := by
  rw [entriesOfBest, entriesOfBest]
  split
  · exact entriesOfAll_mono (List.take_prefix_take_left h)
  · exact List.nil_prefix

/-- Where each hit has an entry, there are no fewer entries than hits. -/
theorem length_le_entriesOfAll
    (h : ∀ hit ∈ hits, ∃ e rest, s.entriesOf reader w hit = .ok (e :: rest)) :
    hits.length ≤ (s.entriesOfAll reader w hits).length := by
  induction hits with
  | nil => exact Nat.zero_le _
  | cons hit hits ih =>
    obtain ⟨e, rest, hhit⟩ := h hit List.mem_cons_self
    have later := ih fun hit' hmem => h hit' (List.mem_cons_of_mem hit hmem)
    have entries : s.entriesOfAll reader w (hit :: hits) =
        (e :: rest) ++ s.entriesOfAll reader w hits := by
      rw [entriesOfAll, List.map_cons, hhit, untilError, List.flatten_cons, entriesOfAll]
    rw [entries, List.length_append, List.length_cons, List.length_cons]
    omega

/-! ### Pages -/

/-- Two pieces of a list that begin at one place are the same if they are equally long. -/
theorem drop_take_eq_iff {l : List α} {a b k : Nat} :
    (l.take a).drop k = (l.take b).drop k ↔ min a l.length - k = min b l.length - k := by
  constructor
  · intro h
    simpa only [List.length_drop, List.length_take] using congrArg List.length h
  · intro h
    refine List.ext_getElem (by simpa only [List.length_drop, List.length_take] using h) ?_
    intro i _ _
    rw [List.getElem_drop, List.getElem_drop, List.getElem_take, List.getElem_take]

/-- A page of what a list begins with is that page of the list as far as the beginning goes. -/
theorem page_of_prefix {front l : List α} (h : front <+: l) {k n a : Nat} (hn : 0 < n)
    (within : k + n ≤ a) :
    (front.drop k).take n = (((l.take a).take front.length).drop k).take n ∧
      ((front.drop k).take n = ((l.take a).drop k).take n ↔
        k + n ≤ front.length ∨ l.length ≤ max k front.length) := by
  obtain ⟨rest, rfl⟩ := h
  have cut : (front.drop k).take n =
      ((front ++ rest).take (min (k + n) front.length)).drop k := by
    rw [List.take_drop, ← List.take_take, List.take_left]
  have asked : (((front ++ rest).take a).drop k).take n =
      ((front ++ rest).take (k + n)).drop k := by
    rw [List.take_drop, List.take_take, Nat.min_eq_left within]
  constructor
  · rw [cut, List.take_drop, List.take_take, List.take_take]
    congr 2
    omega
  · rw [cut, asked, drop_take_eq_iff, List.length_append]
    omega

section Rerun

variable {index : Index} {phrase : String} {groupingKey : Tuple} {highlight : Bool}

/-- With neither rows to leave out nor a limit, as many hits are looked up and entries returned as
the settings allow. -/
theorem new_forward (hphrase : phrase.isEmpty = false)
    (fits : index.records.config.autoCompleteSearchLimit ≤ maxCount) :
    new index phrase groupingKey highlight .forward =
      .ok ⟨index, phrase, groupingKey, highlight, index.records.config.autoCompleteSearchLimit,
        0⟩ := by
  rw [new, hphrase, if_neg (by decide)]
  show Except.ok (Completion.mk _ _ _ _ (min maxCount _) _) = _
  rw [Nat.min_eq_right fits]
  rfl

theorem new_page (hphrase : phrase.isEmpty = false) {k n : Nat} (hn : 0 < n)
    (within : n ≤ index.records.config.autoCompleteSearchLimit) :
    new index phrase groupingKey highlight ((ScanProperties.forward.withSkip k).withLimit n) =
      .ok ⟨index, phrase, groupingKey, highlight, n, k⟩ := by
  have limit : ScanProperties.limitOf n = some n := if_neg (by omega)
  rw [new, hphrase, if_neg (by decide)]
  show Except.ok (Completion.mk _ _ _ _ (min ((ScanProperties.limitOf n).getD _) _) _) = _
  rw [limit, Option.getD_some, Nat.min_eq_left within]
  rfl

/-- The page of `n` entries after the first `k` is cut from the entries of the `k + n` best hits, of
all that a completion returns without leaving out any.  So it returns no entry of another page, and
it is the page that is asked for exactly if these hits have enough entries or further hits have none
of them; in particular if each of these hits has one. -/
theorem page_of_rerun (hphrase : phrase.isEmpty = false) {k n : Nat} (hn : 0 < n)
    (within : k + n ≤ index.records.config.autoCompleteSearchLimit)
    (fits : index.records.config.autoCompleteSearchLimit ≤ maxCount)
    (hcalls : w.callsLeft = none) (numbered : w.Numbered) :
    ∃ whole page, new index phrase groupingKey highlight .forward = .ok whole ∧
      new index phrase groupingKey highlight ((ScanProperties.forward.withSkip k).withLimit n) =
        .ok page ∧
      whole.returned w = (whole.entriesOfBest w whole.limit).take whole.limit ∧
      page.returned w =
        (((whole.returned w).take (whole.entriesOfBest w (k + n)).length).drop k).take n ∧
      (page.returned w = ((whole.returned w).drop k).take n ↔
        k + n ≤ (whole.entriesOfBest w (k + n)).length ∨
          (whole.entriesOfBest w whole.limit).length ≤
            max k (whole.entriesOfBest w (k + n)).length) ∧
      ∀ reader hits, whole.ranking w.directory = .ok (reader, hits) →
        (∀ hit ∈ hits.take (k + n), ∃ e rest, whole.entriesOf reader w hit = .ok (e :: rest)) →
        page.returned w = ((whole.returned w).drop k).take n := by
  refine ⟨_, _, new_forward hphrase fits, new_page hphrase hn (by omega), ?_⟩
  generalize hlimit : index.records.config.autoCompleteSearchLimit = limit at within fits
  let whole : Completion := ⟨index, phrase, groupingKey, highlight, limit, 0⟩
  let page : Completion := ⟨index, phrase, groupingKey, highlight, n, k⟩
  have hwhole : whole.returned w = (whole.entriesOfBest w limit).take limit :=
    returned_eq (s := whole) hcalls numbered (by show 0 < limit; omega) fits
  have hpage : page.returned w = ((whole.entriesOfBest w (k + n)).drop k).take n := by
    rw [returned_eq (s := page) hcalls numbered hn (by show n + k ≤ _; omega)]
    show ((whole.entriesOfBest w (n + k)).drop k).take n = _
    rw [Nat.add_comm]
  obtain ⟨cut, exact_iff⟩ :=
    page_of_prefix (entriesOfBest_mono (s := whole) (w := w) within) hn within
  rw [← hwhole, ← hpage] at cut exact_iff
  refine ⟨hwhole, cut, exact_iff, fun reader hits hranking hentries => exact_iff.2 ?_⟩
  have best (count : Nat) : whole.entriesOfBest w count =
      whole.entriesOfAll reader w (hits.take count) := by
    rw [entriesOfBest, hranking]
  rw [best, best]
  have enough := length_le_entriesOfAll hentries
  rw [List.length_take] at enough
  rcases Nat.le_total (k + n) hits.length with hle | hle
  · rw [Nat.min_eq_left hle] at enough
    exact .inl enough
  · -- There are no further hits.
    rw [List.take_of_length_le hle, List.take_of_length_le (Nat.le_trans hle within)]
    exact .inr (Nat.le_max_right k _)

end Rerun

/-! ### A note without an entry -/

/-- Notes are indexed by tags. -/
def sampleIndex : Index :=
  ⟨⟨"notes", "note", ["tags"], .empty, true⟩, ⟨"main", [], .standard⟩⟩

def sampleNote (pk : Int64) (tags : List String) : Record :=
  ⟨"note", [.int pk], [("tags", .repeated (tags.map fun t => .scalar (.text t)))]⟩

/-- The first note has the typed words in two tags, the second one in a single tag. -/
def sampleWorld : World :=
  sampleIndex.withRecord (sampleIndex.withRecord World.empty (sampleNote 1 ["quick", "fox jumps"]))
    (sampleNote 2 ["quick fox"])

def samplePartition : Partition := sampleWorld.directory.partition ("notes", [])

/-- The completion of two words without rows to leave out. -/
def sampleCompletion : Completion := ⟨sampleIndex, "quick fo", [], false, 10000, 0⟩

def sampleReader : Reader := ⟨("notes", []), .clear⟩

def sampleHit (doc : UInt64) : ScoreDoc := ⟨⟨0x40000000⟩, doc, 0⟩

/-- The only entry there is, of the second note. -/
def sampleEntry : IndexEntry :=
  ⟨"notes", [.text "tags", .text "quick fox"], [.float ⟨0x4000000000000000⟩], some [.int 2]⟩

theorem numbered_sampleWorld : sampleWorld.Numbered :=
  World.numbered_of_nil (List.isEmpty_iff.1 (by decide +kernel))
    (List.isEmpty_iff.1 (by decide +kernel))

/-- Both notes are hits, with the same score. -/
theorem ranking_sampleCompletion : sampleCompletion.ranking sampleWorld.directory =
    .ok (sampleReader, [sampleHit 0, sampleHit 1]) := by
  have matching : samplePartition.matching (sampleCompletion.query ["tags"]) =
      [sampleHit 0, sampleHit 1] := by decide +kernel
  have fields : samplePartition.postings.map (·.1) = ["tags"] := by decide +kernel
  have sorted : [sampleHit 0, sampleHit 1].mergeSort Partition.noLater =
      [sampleHit 0, sampleHit 1] := List.mergeSort_of_pairwise (by decide)
  rw [ranking_eq_ranked _ (p := samplePartition) rfl (by decide +kernel) (by decide +kernel),
    fields, Partition.ranked, matching, sorted]
  rfl

/-- The first note has no entry, for neither of its tags has both words. -/
theorem entriesOf_sampleHit :
    sampleCompletion.entriesOf sampleReader sampleWorld (sampleHit 0) = .ok [] ∧
      sampleCompletion.entriesOf sampleReader sampleWorld (sampleHit 1) =
        .ok [sampleEntry] := by
  exact ⟨Except.toOption_eq_some_iff.1 (by decide +kernel),
    Except.toOption_eq_some_iff.1 (by decide +kernel)⟩

theorem entriesOfBest_sampleCompletion :
    sampleCompletion.entriesOfBest sampleWorld 1 = [] ∧
      ∀ count, 2 ≤ count →
        sampleCompletion.entriesOfBest sampleWorld count = [sampleEntry] := by
  obtain ⟨none, one⟩ := entriesOf_sampleHit
  constructor
  · rw [entriesOfBest, ranking_sampleCompletion]
    show (untilError [sampleCompletion.entriesOf _ _ _]).flatten = []
    rw [none]
    rfl
  · intro count hcount
    rw [entriesOfBest, ranking_sampleCompletion]
    dsimp only
    rw [List.take_of_length_le hcount]
    show (untilError [sampleCompletion.entriesOf _ _ _, sampleCompletion.entriesOf _ _ _]).flatten =
      [sampleEntry]
    rw [none, one]
    rfl

/-- The page of the first two entries has the only one there is. -/
theorem page_of_rerun_sample : ∃ whole page,
    new sampleIndex "quick fo" [] false .forward = .ok whole ∧
      new sampleIndex "quick fo" [] false (ScanProperties.forward.withLimit 2) = .ok page ∧
      whole.returned sampleWorld = [sampleEntry] ∧ page.returned sampleWorld = [sampleEntry] := by
  obtain ⟨whole, page, hwhole, hpage, returned, -, exact_iff, -⟩ :=
    @page_of_rerun sampleWorld sampleIndex "quick fo" [] false (by decide) 0 2 (by decide)
      (by decide) (by decide) rfl numbered_sampleWorld
  obtain rfl : whole = sampleCompletion := (Except.ok.inj hwhole).symm
  rw [entriesOfBest_sampleCompletion.2 _ (by decide)] at returned
  refine ⟨_, page, hwhole, hpage, returned, (exact_iff.2 (.inr ?_)).trans ?_⟩
  · rw [entriesOfBest_sampleCompletion.2 _ (by decide),
      entriesOfBest_sampleCompletion.2 _ (by decide)]
    decide
  · rw [returned]
    rfl

/-- The page of the first entry is empty, although there is an entry. -/
theorem page_without_entry : ∃ whole page,
    new sampleIndex "quick fo" [] false .forward = .ok whole ∧
      new sampleIndex "quick fo" [] false ((ScanProperties.forward.withSkip 0).withLimit 1) =
        .ok page ∧
      page.returned sampleWorld ≠ ((whole.returned sampleWorld).drop 0).take 1 := by
  refine ⟨sampleCompletion, { sampleCompletion with limit := 1 }, rfl, rfl, ?_⟩
  rw [returned_eq rfl numbered_sampleWorld (by decide) (by decide),
    returned_eq rfl numbered_sampleWorld (by decide) (by decide)]
  show ((sampleCompletion.entriesOfBest sampleWorld 1).drop 0).take 1 ≠
    (((sampleCompletion.entriesOfBest sampleWorld 10000).drop 0).take 10000).take 1
  rw [entriesOfBest_sampleCompletion.1, entriesOfBest_sampleCompletion.2 _ (by decide)]
  decide

end ResumableQuery.Search.Completion
