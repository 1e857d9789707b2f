import ResumableQuery.Proofs.Cursor.Promises
import ResumableQuery.Proofs.Position
import ResumableQuery.Proofs.Search.Directory
import ResumableQuery.Proofs.Search.Scores
import ResumableQuery.Search.Hits

/-!
# Pages of hits

The hits of a query have one order, best first (`Partition.ranked`).  The engine sorts by one
comparison, `noLater`, and leaves out what a page already had by another one, `ranksAfter`; on
scores that it computes the two agree, so what is later than a hit is what follows it in the order
(`Partition.sorted_later`).  A search reads that order page by page, whatever the size of a page is
and wherever it begins (`HitScan.returns_ranked`).
-/

namespace ResumableQuery.Search

/-! ### The order of hits -/

namespace Partition

/-- The first hit ranks before the second: it has the higher score, or the same score and the lower
document number. -/
def RanksBefore (a b : ScoreDoc) : Prop :=
  b.score.bits < a.score.bits ∨ a.score = b.score ∧ a.doc < b.doc

/-- The hit is a live document that matches the query, with its score. -/
def IsHit (p : Partition) (query : Query) (hit : ScoreDoc) : Prop :=
  ∃ d, p.document? hit.doc.toNat = some d ∧ p.score d query = some hit.score ∧ hit.shard = 0

/-- The hits of a query, best first. -/
def ranked (p : Partition) (query : Query) : List ScoreDoc := (p.matching query).mergeSort noLater

theorem noLater_iff {a b : ScoreDoc} :
    noLater a b = true ↔ b.score.orderKey.toNat < a.score.orderKey.toNat ∨
      a.score.orderKey.toNat = b.score.orderKey.toNat ∧ a.doc.toNat ≤ b.doc.toNat := by
  rw [noLater, Bool.or_eq_true, Bool.and_eq_true, decide_eq_true_iff, decide_eq_true_iff, beq_iff_eq,
    UInt32.lt_iff_toNat_lt, UInt64.le_iff_toNat_le, UInt32.toNat_inj]

theorem noLater_trans (a b c : ScoreDoc) (hab : noLater a b = true) (hbc : noLater b c = true) :
    noLater a c = true := by
  rw [noLater_iff] at hab hbc ⊢
  omega

theorem noLater_total (a b : ScoreDoc) : (noLater a b || noLater b a) = true := by
  rw [Bool.or_eq_true, noLater_iff, noLater_iff]
  omega

section Hits

variable {p : Partition} {query : Query} {a b hit : ScoreDoc}

theorem IsHit.isMagnitude (h : p.IsHit query hit) : hit.score.IsMagnitude := by
  obtain ⟨d, -, hscore, -⟩ := h
  exact isMagnitude_of_score hscore

theorem IsHit.shard_eq (h : p.IsHit query hit) : hit.shard = 0 := by
  obtain ⟨d, -, -, hshard⟩ := h
  exact hshard

/-- Both comparisons of the engine follow the order of hits: what ranks after a hit, … -/
theorem ranksAfter_iff (ha : p.IsHit query a) (hb : p.IsHit query b) :
    b.ranksAfter a = true ↔ RanksBefore a b := by
  rw [ScoreDoc.ranksAfter, Bool.or_eq_true, Bool.and_eq_true,
    hb.isMagnitude.lt_iff ha.isMagnitude, hb.isMagnitude.numEq_iff ha.isMagnitude, ha.shard_eq,
    hb.shard_eq, RanksBefore, eq_comm]
  simp

/-- … and what comes no later than another. -/
theorem noLater_iff_ranksBefore (ha : p.IsHit query a) (hb : p.IsHit query b) :
    noLater a b = true ↔ RanksBefore a b ∨ a = b := by
  have hshard := ha.shard_eq.trans hb.shard_eq.symm
  have hlt := hb.isMagnitude.orderKey_lt_iff ha.isMagnitude
  have heq := ha.isMagnitude.orderKey_eq_iff hb.isMagnitude
  rw [noLater, Bool.or_eq_true, Bool.and_eq_true, decide_eq_true_iff, decide_eq_true_iff, beq_iff_eq,
    hlt, heq, RanksBefore, UInt64.le_iff_lt_or_eq, and_or_left, ← or_assoc]
  refine or_congr_right ⟨fun h => ?_, fun h => by rw [h]; exact ⟨rfl, rfl⟩⟩
  cases a; cases b
  simp_all

theorem RanksBefore.asymm (h : RanksBefore a b) : ¬RanksBefore b a := by
  simp only [RanksBefore, UInt32.lt_iff_toNat_lt, UInt64.lt_iff_toNat_lt] at h ⊢
  rintro (h' | ⟨h', h''⟩)
  · rcases h with h | ⟨h, -⟩
    · omega
    · rw [h] at h'
      omega
  · rw [h'] at h
    omega

section Fitting

variable (fits : p.documents.length ≤ 2 ^ 64)

include fits

theorem toNat_ofNat_of_mem_live {e : Nat × StoredDocument} (h : e ∈ p.live) :
    (UInt64.ofNat e.1).toNat = e.1 := by
  have hlt := lt_length_of_document? (mem_live.1 h)
  rw [UInt64.toNat_ofNat']
  omega

theorem mem_matching : hit ∈ p.matching query ↔ p.IsHit query hit := by
  rw [matching, List.mem_filterMap]
  constructor
  · rintro ⟨⟨n, d⟩, hlive, hhit⟩
    obtain ⟨x, hscore, rfl⟩ := Option.map_eq_some_iff.1 hhit
    refine ⟨d, ?_, hscore, rfl⟩
    rw [toNat_ofNat_of_mem_live fits hlive]
    exact mem_live.1 hlive
  · rintro ⟨d, hd, hscore, hshard⟩
    refine ⟨(hit.doc.toNat, d), mem_live.2 hd, ?_⟩
    show (p.score d query).map _ = some hit
    rw [hscore, Option.map_some, UInt64.ofNat_toNat, ← hshard]

theorem nodup_matching : (p.matching query).Nodup := by
  have live : p.live.Pairwise fun a b => UInt64.ofNat a.1 ≠ UInt64.ofNat b.1 := by
    refine pairwise_live.imp_of_mem fun ha hb hlt heq => ?_
    have := congrArg UInt64.toNat heq
    rw [toNat_ofNat_of_mem_live fits ha, toNat_ofNat_of_mem_live fits hb] at this
    omega
  refine List.Pairwise.filterMap _ (fun a a' hne b hb b' hb' heq => ?_) live
  obtain ⟨x, -, rfl⟩ := Option.map_eq_some_iff.1 hb
  obtain ⟨y, -, hy⟩ := Option.map_eq_some_iff.1 hb'
  exact hne (ScoreDoc.mk.inj (heq.trans hy.symm)).2.1

theorem mem_ranked : hit ∈ p.ranked query ↔ p.IsHit query hit := by
  rw [ranked, List.mem_mergeSort, mem_matching fits]

/-- The hits stand in their order, so each is there once. -/
theorem pairwise_ranked : (p.ranked query).Pairwise RanksBefore := by
  have sorted := List.pairwise_mergeSort noLater_trans noLater_total (p.matching query)
  have nodup : (p.ranked query).Nodup :=
    (List.mergeSort_perm _ _).nodup_iff.2 (nodup_matching fits)
  refine (sorted.and nodup).imp_of_mem fun ha hb h => ?_
  have ha := (mem_ranked fits).1 ha
  have hb := (mem_ranked fits).1 hb
  exact ((noLater_iff_ranksBefore ha hb).1 h.1).resolve_right h.2

/-- Of hits in order, those that rank after the last one of some are those that follow. -/
theorem filter_ranksAfter {front back : List ScoreDoc} (h : p.ranked query = front ++ back) :
    (p.ranked query).filter (fun b => front.getLast?.all b.ranksAfter) = back := by
  rcases List.eq_nil_or_concat front with rfl | ⟨front, a, rfl⟩
  · rw [h]
    exact List.filter_eq_self.2 fun _ _ => rfl
  · have isHit {b : ScoreDoc} (hb : b ∈ p.ranked query) := (mem_ranked fits).1 hb
    have sorted : (p.ranked query).Pairwise RanksBefore := pairwise_ranked fits
    rw [List.concat_eq_append] at h ⊢
    rw [h] at sorted isHit ⊢
    obtain ⟨hfront, -, hback⟩ := List.pairwise_append.1 sorted
    have ha : p.IsHit query a := isHit (by simp)
    rw [List.getLast?_concat, List.filter_append]
    have before : (front ++ [a]).filter (fun b => (some a).all b.ranksAfter) = [] := by
      refine List.filter_eq_nil_iff.2 fun b hb hafter => ?_
      have hab := (ranksAfter_iff ha (isHit (List.mem_append_left _ hb))).1 hafter
      rcases List.mem_append.1 hb with hb | hb
      · exact hab.asymm ((List.pairwise_append.1 hfront).2.2 b hb a List.mem_cons_self)
      · exact hab.asymm (List.mem_singleton.1 hb ▸ hab)
    have after : back.filter (fun b => (some a).all b.ranksAfter) = back := by
      refine List.filter_eq_self.2 fun b hb => ?_
      have hab := hback a (List.mem_append_right _ List.mem_cons_self) b hb
      exact (ranksAfter_iff ha (isHit (List.mem_append_right _ hb))).2 hab
    rw [before, after, List.nil_append]

/-- What the engine sorts for a page is what follows the hits that earlier pages had. -/
theorem sorted_later {front back : List ScoreDoc} (h : p.ranked query = front ++ back) :
    ((p.matching query).filter fun b => front.getLast?.all b.ranksAfter).mergeSort noLater =
      back := by
  have perm : ((p.matching query).filter fun b => front.getLast?.all b.ranksAfter).Perm back := by
    have := (List.mergeSort_perm (p.matching query) noLater).filter fun b =>
      front.getLast?.all b.ranksAfter
    rw [← ranked, filter_ranksAfter fits h] at this
    exact this.symm
  have isHit {b : ScoreDoc} (hb : b ∈ back) : p.IsHit query b :=
    (mem_ranked fits).1 (h ▸ List.mem_append_right front hb)
  have sorted : back.Pairwise fun a b => noLater a b = true := by
    have ranked : (p.ranked query).Pairwise RanksBefore := pairwise_ranked fits
    rw [h] at ranked
    have hback := (List.pairwise_append.1 ranked).2.1
    exact hback.imp_of_mem fun ha hb hab =>
      (noLater_iff_ranksBefore (isHit ha) (isHit hb)).2 (.inl hab)
  refine ((List.mergeSort_perm _ _).trans perm).eq_of_pairwise (fun a b ha hb hab hba => ?_)
    (List.pairwise_mergeSort noLater_trans noLater_total _) sorted
  have ha := isHit (perm.mem_iff.1 (List.mem_mergeSort.1 ha))
  have hb := isHit hb
  rcases (noLater_iff_ranksBefore ha hb).1 hab with hab | rfl
  · exact (((noLater_iff_ranksBefore hb ha).1 hba).resolve_left hab.asymm).symm
  · rfl

/-- A page of a search: the next hits in order after those of earlier pages. -/
theorem search_eq_take {front back : List ScoreDoc} (h : p.ranked query = front ++ back)
    (written : p.documents.isEmpty = false) (count : Nat) :
    p.search query front.getLast? count = .ok ⟨(p.matching query).length, back.take count⟩ := by
  rw [search, written, if_neg (by decide)]
  show Except.ok (TopHits.mk _ ((List.mergeSort _ noLater).take count)) = _
  rw [sorted_later fits h]

end Fitting

theorem ranked_eq_nil (h : p.documents.isEmpty = true) : p.ranked query = [] := by
  have : p.documents = [] := List.isEmpty_iff.1 h
  rw [ranked, matching, live, this]
  exact List.mergeSort_nil

end Hits

/-- The primary key of the record that a hit stands for. -/
def keyOf (p : Partition) (hit : ScoreDoc) : Tuple :=
  ((p.document? hit.doc.toNat).map (·.primaryKey)).getD []

theorem primaryKey_eq_keyOf {p : Partition} {query : Query} {hit : ScoreDoc}
    (h : p.IsHit query hit) : p.primaryKey hit.doc = .ok (p.keyOf hit) := by
  obtain ⟨d, hd, -⟩ := h
  rw [primaryKey, keyOf, hd]
  rfl

end Partition

/-! ### Reading the order page by page -/

/-- Whatever else happens to the world, the partition at a place and its reader stay. -/
def Unchanged (place : Place) (w w' : World) : Prop :=
  Ordered.find? place w'.directory = Ordered.find? place w.directory

theorem Unchanged.partition_eq {place : Place} {w w' : World} (h : Unchanged place w w') :
    w'.directory.partition place = w.directory.partition place := by
  rw [Directory.partition, h, Directory.partition]

/-- Tasks leave partitions as they are. -/
theorem passage_unchanged (place : Place) : World.Passage (Unchanged place) where
  refl _ := rfl
  trans h h' := Eq.trans h' h
  start _ _ _ := rfl
  drop _ _ := rfl
  await w wait := congrArg (Ordered.find? place) (w.directory_awaitWithin _ wait)

namespace HitScan

/-- The search with another number of hits to a page. -/
def withPageSize (s : HitScan) (n : Nat) : HitScan :=
  { s with index.records.config.searchPageSize := n }

/-- The row of a hit of a partition: its entry, and the continuation right after it. -/
def row (s : HitScan) (p : Partition) (hit : ScoreDoc) : IndexEntry × Continuation :=
  (s.entry hit (p.keyOf hit), hit.toContinuation)

/-- What a search hands out for hits that follow each other up to the last one. -/
def outcome (s : HitScan) (p : Partition) (hits : List ScoreDoc) : Cursor.Outcome IndexEntry :=
  (hits.map (s.row p), .stopped .sourceExhausted .done)

section Reading

variable {s : HitScan} {place : Place} {p : Partition} {w : World}

theorem promises_page (hw : w.directory.partition place = p) {hits : List ScoreDoc}
    (isHit : ∀ hit ∈ hits, p.IsHit s.query hit) {rest : Unit → Cursor IndexEntry}
    {P : Cursor.Outcome IndexEntry → Prop}
    (hrest : ∀ w', Unchanged place w w' →
      (rest ()).Promises (Unchanged place) w' fun o => P (hits.map (s.row p) ++ o.1, o.2)) :
    (s.page ⟨place, .clear⟩ rest hits).Promises (Unchanged place) w P := by
  induction hits generalizing w P with
  | nil => exact hrest w rfl
  | cons hit hits ih =>
    have key : (Reader.mk place .clear).primaryKey w.directory hit.doc = .ok (p.keyOf hit) := by
      rw [← Partition.primaryKey_eq_keyOf (isHit hit List.mem_cons_self), ← hw]
      rfl
    rw [page, Cursor.promises_consult, key]
    intro w' hw'
    exact ih (hw'.partition_eq.trans hw) (fun h hh => isHit h (List.mem_cons_of_mem _ hh))
      fun w'' hw'' => hrest w'' (Eq.trans hw'' hw')

/-- The pages that begin after some hits hand out the hits that follow.  One page more than there
are hits is enough: the last page may turn out to be empty. -/
theorem promises_pages (fits : p.documents.length ≤ 2 ^ 64)
    (hw : w.directory.partition place = p) {count : Nat} {front back : List ScoreDoc}
    (h : p.ranked s.query = front ++ back) (hcount : back.length < count) :
    (s.pages ⟨place, .clear⟩ count front.getLast?).Promises (Unchanged place) w
      (· = s.outcome p back) := by
  induction count generalizing w front back with
  | zero => omega
  | succ count ih =>
    have search : (Reader.mk place .clear).search w.directory s.query front.getLast? s.pageSize =
        p.search s.query front.getLast? s.pageSize := by
      rw [← hw]
      rfl
    rw [pages, Cursor.promises_consult, search]
    cases written : p.documents.isEmpty with
    | true =>
      obtain ⟨-, rfl⟩ := List.append_eq_nil_iff.1 (h.symm.trans (Partition.ranked_eq_nil written))
      rw [Partition.search, written]
      rfl
    | false =>
      rw [Partition.search_eq_take fits h written]
      have isHit {hit : ScoreDoc} (hhit : hit ∈ back) : p.IsHit s.query hit :=
        (Partition.mem_ranked fits).1 (h ▸ List.mem_append_right front hhit)
      refine promises_page hw (fun hit hhit => isHit (List.mem_of_mem_take hhit)) fun w' hw' => ?_
      show Cursor.Promises _ (if (back.take s.pageSize).length < s.pageSize then _ else _) _ _
      have hsize : 1 ≤ s.pageSize := Nat.le_max_left ..
      rw [List.length_take]
      split
      · have hall : back.take s.pageSize = back := List.take_of_length_le (by omega)
        show (_ ++ [], _) = s.outcome p back
        rw [List.append_nil, hall]
        rfl
      · have later : p.ranked s.query =
            (front ++ back.take s.pageSize) ++ back.drop s.pageSize := by
          rw [List.append_assoc, List.take_append_drop, h]
        rw [← List.getLast?_append]
        refine (ih (hw'.partition_eq.trans hw) later ?_).mono ?_
        · rw [List.length_drop]
          omega
        · rintro o rfl
          show (_ ++ _, _) = s.outcome p back
          rw [outcome, ← List.map_append, List.take_append_drop]
          rfl

theorem promises_rows (fits : p.documents.length ≤ 2 ^ 64)
    (hw : w.directory.partition (s.index.place s.groupingKey) = p)
    (sound : ∀ shelf ∈ Ordered.find? (s.index.place s.groupingKey) w.directory,
      shelf.faults = .clear)
    {front back : List ScoreDoc} (h : p.ranked s.query = front ++ back) :
    (s.rows front.getLast?).Promises (Unchanged (s.index.place s.groupingKey)) w
      (· = s.outcome p back) := by
  rw [rows, Cursor.promises_consult, Directory.reader]
  cases hshelf : Ordered.find? (s.index.place s.groupingKey) w.directory with
  | none =>
    have never : p.documents.isEmpty = true := by
      rw [← hw, Directory.partition, hshelf]
      rfl
    obtain ⟨-, rfl⟩ := List.append_eq_nil_iff.1 (h.symm.trans (Partition.ranked_eq_nil never))
    exact rfl
  | some shelf =>
    have few : back.length < s.mostPages w := by
      have hlength := congrArg List.length h
      have hmatching : (p.matching s.query).length ≤ p.live.length := List.length_filterMap_le ..
      rw [Partition.ranked, List.length_mergeSort, List.length_append] at hlength
      rw [mostPages, hw, Partition.liveCount]
      have : 0 < UInt64.size := by decide
      omega
    show (s.pages ⟨_, shelf.faults⟩ _ _).Promises _ _ _
    rw [sound shelf hshelf]
    exact promises_pages fits hw h few

end Reading

theorem openAt_toContinuation (s : HitScan) (hit : ScoreDoc) :
    s.openAt hit.toContinuation = .ok (s.rows (some hit)) := by
  have after := Continuation.position_resume hit.reads_ofWire
  rw [ScoreDoc.toContinuation, openAt, after]
  nofun

/-- Over a partition that stays as it is, a search returns each live document that matches the query
once, by descending score and then by ascending document number.  That holds for every number of
hits to a page, and so does this: opened at the continuation of a row, with any number of hits to a
page, a search returns the rows that follow. -/
theorem returns_ranked (s : HitScan) {w : World} {p : Partition}
    (hw : w.directory.partition (s.index.place s.groupingKey) = p)
    (sound : ∀ shelf ∈ Ordered.find? (s.index.place s.groupingKey) w.directory,
      shelf.faults = .clear)
    (fits : p.documents.length ≤ 2 ^ 64) :
    (∀ hit, hit ∈ p.ranked s.query ↔ p.IsHit s.query hit) ∧
      ((p.ranked s.query).map (·.doc)).Nodup ∧
      (p.ranked s.query).Pairwise (fun a b =>
        b.score.lt a.score = true ∨ a.score = b.score ∧ a.doc < b.doc) ∧
      (∀ n, ∃ c, (s.withPageSize n).openAt .start = .ok c ∧
        c.Promises (Unchanged (s.index.place s.groupingKey)) w
          (· = s.outcome p (p.ranked s.query))) ∧
      ∀ front hit back, p.ranked s.query = front ++ hit :: back →
        ∀ n, ∃ c, (s.withPageSize n).openAt (s.row p hit).2 = .ok c ∧
          c.Promises (Unchanged (s.index.place s.groupingKey)) w (· = s.outcome p back) := by
  have isHit {hit : ScoreDoc} : hit ∈ p.ranked s.query ↔ p.IsHit s.query hit :=
    Partition.mem_ranked fits
  have sorted : (p.ranked s.query).Pairwise Partition.RanksBefore := Partition.pairwise_ranked fits
  refine ⟨fun _ => isHit, ?_, ?_, fun n => ?_, fun front hit back h n => ?_⟩
  · refine List.pairwise_map.2 (sorted.imp_of_mem fun {a b} ha hb hab heq => ?_)
    obtain ⟨d, hd, hscore, -⟩ := isHit.1 ha
    obtain ⟨d', hd', hscore', -⟩ := isHit.1 hb
    obtain rfl : d = d' := Option.some.inj (hd.symm.trans ((congrArg _ (congrArg _ heq)).trans hd'))
    rcases hab with hab | ⟨-, hab⟩
    · rw [Option.some.inj (hscore.symm.trans hscore')] at hab
      exact UInt32.lt_irrefl _ hab
    · rw [heq] at hab
      exact UInt64.lt_irrefl _ hab
  · refine sorted.imp_of_mem fun ha hb hab => ?_
    rwa [(isHit.1 hb).isMagnitude.lt_iff (isHit.1 ha).isMagnitude]
  · have whole : p.ranked s.query = [] ++ p.ranked s.query := rfl
    exact ⟨_, rfl, promises_rows (s := s.withPageSize n) fits hw sound whole⟩
  · have later : p.ranked s.query = (front ++ [hit]) ++ back := by
      rw [List.append_assoc]
      exact h
    have rows := promises_rows (s := s.withPageSize n) fits hw sound later
    rw [List.getLast?_concat] at rows
    exact ⟨_, openAt_toContinuation _ hit, rows⟩

/-- Three notes were added, and the second one was deleted. -/
def samplePartition : Partition :=
  let p := ((Partition.empty "notes" []).add [.int 1] [("body", "red fox")]).1
  let p := (p.add [.int 2] [("body", "blue fox")]).1
  let p := (p.add [.int 3] [("body", "Foxes!")]).1
  (p.delete [.int 2]).1

def sampleScan : HitScan :=
  ⟨⟨⟨"notes", "note", ["body"], .empty, false⟩, ⟨"main", [], .standard⟩⟩, .startOf "body" "fox", []⟩

def sampleWorld : World :=
  { World.empty with directory := [(("notes", []), ⟨samplePartition, .clear⟩)] }

/-- The first and the third note match, both with a score of one. -/
theorem ranked_samplePartition :
    samplePartition.ranked sampleScan.query = [⟨⟨0x3f800000⟩, 0, 0⟩, ⟨⟨0x3f800000⟩, 2, 0⟩] := by
  have hmatching : samplePartition.matching sampleScan.query =
      [⟨⟨0x3f800000⟩, 0, 0⟩, ⟨⟨0x3f800000⟩, 2, 0⟩] := by decide +kernel
  rw [Partition.ranked, hmatching]
  exact List.mergeSort_of_pairwise (by decide)

theorem returns_ranked_sample :
    (∃ c, (sampleScan.withPageSize 2).openAt .start = .ok c ∧
      (c.run sampleWorld).2 = sampleScan.outcome samplePartition
        [⟨⟨0x3f800000⟩, 0, 0⟩, ⟨⟨0x3f800000⟩, 2, 0⟩]) ∧
      ∃ c, (sampleScan.withPageSize 1).openAt
          (sampleScan.row samplePartition ⟨⟨0x3f800000⟩, 0, 0⟩).2 = .ok c ∧
        (c.run sampleWorld).2 = sampleScan.outcome samplePartition [⟨⟨0x3f800000⟩, 2, 0⟩] := by
  obtain ⟨-, -, -, whole, rest⟩ := returns_ranked sampleScan (w := sampleWorld)
    (p := samplePartition) rfl (fun _ h => by cases h; rfl) (by decide +kernel)
  rw [ranked_samplePartition] at whole rest
  have passage := passage_unchanged (sampleScan.index.place sampleScan.groupingKey)
  constructor
  · obtain ⟨c, hopen, hc⟩ := whole 2
    exact ⟨c, hopen, hc.run passage⟩
  · obtain ⟨c, hopen, hc⟩ := rest [] _ _ rfl 1
    exact ⟨c, hopen, hc.run passage⟩

end HitScan

end ResumableQuery.Search
