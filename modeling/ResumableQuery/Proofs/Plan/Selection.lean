import ResumableQuery.Proofs.Cursor.SetAlgebra
import ResumableQuery.Proofs.Plan.Pages
import ResumableQuery.Proofs.Range
import ResumableQuery.Proofs.RecordStore.Writes

/-!
# What plans select

A scan selects the records whose keys lie in the interval of its range, a filter those of its child
whose key is a given one, a union those that some leg selects and an intersection those that all
legs select (`Plan.Selects`).  Executed without limits over a store of records, a plan hands out the
records that it selects, each once and in the order of their primary keys (`page_selects`), if it
runs in one direction throughout and its merges compare rows by keys that increase with the primary
key.  What is proved of each plan, and so of each leg of a merge, is that its rows are in this
order: it is what lets the merge above rely on them.
-/

namespace ResumableQuery

open Cursor

/-! ### Records in a store -/

/-- The one record comes before the other by its primary key, in a direction. -/
def Record.Before (reverse : Bool) (a b : Record) : Prop :=
  if reverse then compare b.primaryKey a.primaryKey = .lt
  else compare a.primaryKey b.primaryKey = .lt

theorem Record.not_before_self (reverse : Bool) (a : Record) : ¬ a.Before reverse a := by
  unfold Before
  rw [Std.compare_self]
  split <;> exact nofun

namespace RecordStore

theorem before_keyOf_iff {records : RecordStore} (t u : Tuple) :
    (records.keyOf t).before (records.keyOf u) = true ↔ compare t u = .lt := by
  rw [keyOf, keyOf, Bytes.append_before_append, Tuple.before_pack_iff]

/-- The record in a stored pair that holds one. -/
def recordIn (e : Bytes × Bytes) : Record := (decode e.2).toOption.getD default

theorem recordIn_eq {e : Bytes × Bytes} {r : Record} (h : decode e.2 = .ok r) : recordIn e = r := by
  rw [recordIn, h]
  rfl

end RecordStore

namespace Snapshot

variable {s : Snapshot} {a b : Record} {reverse : Bool}

/-- The record is what is stored under its key. -/
def Stored (s : Snapshot) (r : Record) : Prop :=
  ∃ value, (s.records.keyOf r.primaryKey, value) ∈ s.content ∧ RecordStore.decode value = .ok r

theorem Stored.eq_of_primaryKey_eq (ha : s.Stored a) (hb : s.Stored b)
    (h : a.primaryKey = b.primaryKey) : a = b := by
  obtain ⟨u, hu, ha⟩ := ha
  obtain ⟨v, hv, hb⟩ := hb
  rw [h] at hu
  have huv := (Ordered.Sorted.find?_of_mem s.sorted hu).symm.trans
    (Ordered.Sorted.find?_of_mem s.sorted hv)
  rw [Option.some.inj huv, hb] at ha
  exact (Except.ok.inj ha).symm

/-- The rows are the stored records that satisfy a predicate, in order of their primary keys. -/
structure Lists (s : Snapshot) (reverse : Bool) (P : Record → Prop) (l : List Record) : Prop where
  ordered : l.Pairwise (Record.Before reverse)
  mem_iff : ∀ r, r ∈ l ↔ s.Stored r ∧ P r

theorem Lists.congr {P Q : Record → Prop} {l : List Record} (h : s.Lists reverse P l)
    (hPQ : ∀ r, P r ↔ Q r) : s.Lists reverse Q l where
  ordered := h.ordered
  mem_iff r := (h.mem_iff r).trans (and_congr_right fun _ => hPQ r)

theorem Lists.filter {P : Record → Prop} {l : List Record} (h : s.Lists reverse P l)
    (p : Record → Bool) : s.Lists reverse (fun r => P r ∧ p r = true) (l.filter p) where
  ordered := h.ordered.filter p
  mem_iff r := by rw [List.mem_filter, h.mem_iff, and_assoc]

end Snapshot

/-! ### Keys that increase with the primary key -/

/-- The key of every stored record is defined, and it increases with the primary key. -/
structure ComparisonKey.Increases (key : ComparisonKey) (s : Snapshot) : Prop where
  evaluates : ∀ r, s.Stored r → ∃ t, key.evaluate s.bindings r = .ok t
  increases : ∀ a b, s.Stored a → s.Stored b → compare a.primaryKey b.primaryKey = .lt →
    ∀ t u, key.evaluate s.bindings a = .ok t → key.evaluate s.bindings b = .ok u →
      compare t u = .lt

namespace ComparisonKey

variable {key : ComparisonKey} {s : Snapshot} {a b : Record}

/-- The key of a record, if it has one. -/
def columnsOf (key : ComparisonKey) (s : Snapshot) (r : Record) : Tuple :=
  (key.evaluate s.bindings r).toOption.getD []

theorem Increases.evaluate_eq (h : key.Increases s) (ha : s.Stored a) :
    key.evaluate s.bindings a = .ok (key.columnsOf s a) := by
  obtain ⟨t, ht⟩ := h.evaluates a ha
  rw [columnsOf, ht]
  rfl

/-- Stored records are in the order of these keys as they are in that of their primary keys. -/
theorem Increases.compare_eq (h : key.Increases s) (ha : s.Stored a) (hb : s.Stored b) :
    compare (key.columnsOf s a) (key.columnsOf s b) = compare a.primaryKey b.primaryKey := by
  have increases {a b : Record} (ha : s.Stored a) (hb : s.Stored b) (hlt) :=
    h.increases a b ha hb hlt _ _ (h.evaluate_eq ha) (h.evaluate_eq hb)
  cases hc : compare a.primaryKey b.primaryKey with
  | lt => exact increases ha hb hc
  | eq =>
    rw [ha.eq_of_primaryKey_eq hb (Tuple.eq_of_compare_eq hc)]
    exact Std.compare_self
  | gt => exact Std.OrientedCmp.gt_iff_lt.2 (increases hb ha (Std.OrientedCmp.gt_iff_lt.1 hc))

theorem Increases.precedes_iff (h : key.Increases s) (m : Merge Record) (ha : s.Stored a)
    (hb : s.Stored b) :
    m.precedes (key.columnsOf s a) (key.columnsOf s b) = true ↔ a.Before m.reverse b := by
  rw [Merge.precedes, h.compare_eq ha hb, h.compare_eq hb ha, Record.Before]
  split <;> exact Ordering.isLT_iff_eq_lt

theorem Increases.eq_of_columnsOf_eq (h : key.Increases s) (ha : s.Stored a) (hb : s.Stored b)
    (hab : key.columnsOf s a = key.columnsOf s b) : a = b := by
  have hcompare := h.compare_eq ha hb
  rw [hab, Std.compare_self] at hcompare
  exact ha.eq_of_primaryKey_eq hb (Tuple.eq_of_compare_eq hcompare.symm)

end ComparisonKey

namespace Plan

variable {s : Snapshot} {reverse : Bool}

/-! ### What a plan selects -/

mutual

/-- The records that a plan selects. -/
def Selects (s : Snapshot) : Plan → Record → Prop
  | scan range _ => fun r =>
    (range.toKeyRange s.records.subspace).contains (s.records.keyOf r.primaryKey) = true
  | filter child key equals => fun r => child.Selects s r ∧ key.evaluate r = .ok equals
  | merge operation legs _ _ => fun r => operation.OfLegs (· r) (selections s legs)
  | dynamic _ leg _ _ => leg.Selects s

/-- What the legs of a merge select. -/
def selections (s : Snapshot) : List (Alias × Plan) → List (Record → Prop)
  | [] => []
  | (_, leg) :: rest => leg.Selects s :: selections s rest

end

mutual

/-- All of the plan runs in one direction, each merge has legs, and the keys by which it compares
them increase with the primary key. -/
def Directed (s : Snapshot) (reverse : Bool) : Plan → Prop
  | scan _ r => r = reverse
  | filter child _ _ => child.Directed s reverse
  | merge _ legs key r =>
    r = reverse ∧ legs ≠ [] ∧ key.Increases s ∧ LegsDirected s reverse legs
  | dynamic _ leg _ _ => leg.Directed s reverse

/-- All legs of a merge run in one direction. -/
def LegsDirected (s : Snapshot) (reverse : Bool) : List (Alias × Plan) → Prop
  | [] => True
  | (_, leg) :: rest => leg.Directed s reverse ∧ LegsDirected s reverse rest

end

theorem selections_eq_map (legs : List (Alias × Plan)) :
    selections s legs = legs.map fun leg => leg.2.Selects s := by
  induction legs with
  | nil => rfl
  | cons leg legs ih => rw [selections, ih, List.map_cons]

theorem keyIs_iff {key : KeyExpression} {equals : Tuple} {r : Record} :
    keyIs key equals r = true ↔ key.evaluate r = .ok equals := by
  unfold keyIs
  cases key.evaluate r <;> simp

/-! ### Scans -/

section Scan

variable (hs : s.records.HoldsRecords s.content) {range : TupleRange} {budget : BudgetId}

include hs

theorem record_of_mem_pending {e : Bytes × Bytes}
    (he : e ∈ (s.records.keyScan range reverse budget).pending s.content none) :
    RecordStore.decode e.2 = .ok (RecordStore.recordIn e) ∧
      e.1 = s.records.keyOf (RecordStore.recordIn e).primaryKey ∧
      (range.toKeyRange s.records.subspace).contains e.1 = true := by
  obtain ⟨t, ht⟩ := hs.subspace
  have hin : (range.toKeyRange s.records.subspace).contains e.1 = true := (List.mem_filter.1 he).2
  obtain ⟨r, hr, hkey⟩ := hs.pairs e (KeyScan.mem_of_mem_pending _ he) (by
    rw [ht] at hin ⊢
    exact TupleRange.prefix_of_contains_toKeyRange range t hin)
  rw [RecordStore.recordIn_eq hr]
  exact ⟨hr, hkey, hin⟩

theorem pairwise_before_pending :
    ((s.records.keyScan range reverse budget).pending s.content none).Pairwise fun e e' =>
      (RecordStore.recordIn e).Before reverse (RecordStore.recordIn e') := by
  have hordered := ((s.records.keyScan range reverse budget).pairwise_comesAfter s.sorted).filter
    fun e => (range.toKeyRange s.records.subspace).contains e.1
  refine hordered.imp_of_mem fun {e e'} he he' hafter => ?_
  rw [KeyScan.comesAfter, (record_of_mem_pending hs he).2.1,
    (record_of_mem_pending hs he').2.1] at hafter
  unfold Record.Before
  split at hafter
  · rw [if_pos (by assumption)]
    exact (RecordStore.before_keyOf_iff _ _).1 hafter
  · rw [if_neg (by assumption)]
    exact (RecordStore.before_keyOf_iff _ _).1 hafter

theorem lists_scan : ∃ l, ((scan range reverse).reading s).ahead .start = .ofList l ∧
    s.Lists reverse ((scan range reverse).Selects s) l := by
  let keys := s.records.keyScan range reverse 0
  refine ⟨(keys.pending s.content none).map RecordStore.recordIn, ?_,
    List.pairwise_map.2 (pairwise_before_pending hs), fun r => ?_⟩
  · rw [reading]
    show (Prospect.ofList (keys.pendingAt s.content .start)).tryMap RecordStore.decodePair = _
    rw [KeyScan.pendingAt_of_position (c := .start) (p := none) (fun h => by cases h) rfl]
    refine Prospect.tryMap_ofList fun e he => ?_
    rw [RecordStore.decodePair, (record_of_mem_pending hs he).1]
    rfl
  · rw [List.mem_map, Selects]
    constructor
    · rintro ⟨e, he, rfl⟩
      obtain ⟨hr, hkey, hin⟩ := record_of_mem_pending hs he
      rw [hkey] at hin
      refine ⟨⟨e.2, ?_, hr⟩, hin⟩
      rw [← hkey]
      exact keys.mem_of_mem_pending he
    · rintro ⟨⟨value, hmem, hr⟩, hin⟩
      refine ⟨(s.records.keyOf r.primaryKey, value), List.mem_filter.2 ⟨?_, hin⟩,
        RecordStore.recordIn_eq hr⟩
      split
      · exact List.mem_reverse.2 hmem
      · exact hmem

end Scan

/-! ### Merges -/

/-- A merge of rows in order of their primary keys hands out rows in that order again: those of some
legs or of all. -/
theorem lists_combine {m : Merge Record} {key : ComparisonKey}
    (hkey : m.key = key.ofRow s.bindings) (hinc : key.Increases s) {Ps : List (Record → Prop)}
    {ls : List (List Record)} (hne : Ps ≠ []) (h : List.Forall₂ (s.Lists m.reverse) Ps ls) :
    ∃ R, m.combine (ls.map .ofList) = .ofList R ∧
      s.Lists m.reverse (fun r => m.operation.OfLegs (· r) Ps) R := by
  have hlists : ∀ l ∈ ls, ∃ P, s.Lists m.reverse P l := fun l hl =>
    exists_of_forall₂_mem h hl
  have hstored : ∀ l ∈ ls, ∀ r ∈ l, s.Stored r := by
    intro l hl r hr
    obtain ⟨P, hP⟩ := hlists l hl
    exact ((hP.mem_iff r).1 hr).1
  have hkeyed : ∀ l ∈ ls, Merge.Keyed m (key.columnsOf s) l := by
    intro l hl r hr
    rw [hkey, ComparisonKey.ofRow, hinc.evaluate_eq (hstored l hl r hr)]
    rfl
  have hstrict : ∀ l ∈ ls, Merge.InStrictOrder m (key.columnsOf s) l := by
    intro l hl
    obtain ⟨P, hP⟩ := hlists l hl
    exact hP.ordered.imp_of_mem fun ha hb =>
      (hinc.precedes_iff m (hstored l hl _ ha) (hstored l hl _ hb)).2
  have hsame : ∀ l ∈ ls, ∀ a ∈ l, ∀ l' ∈ ls, ∀ b ∈ l',
      key.columnsOf s a = key.columnsOf s b → a = b := fun l hl a ha l' hl' b hb =>
    hinc.eq_of_columnsOf_eq (hstored l hl a ha) (hstored l' hl' b hb)
  have hls : ls ≠ [] := by
    rintro rfl
    cases h
    exact hne rfl
  obtain ⟨R, hR, hordered, hlegs⟩ :=
    Merge.exists_combine_eq_of_strict hls hkeyed hstrict hsame
  have hmem : ∀ r, r ∈ R ↔ s.Stored r ∧ m.operation.OfLegs (· r) Ps := by
    intro r
    rw [hlegs, ← ofLegs_and _ hne]
    exact (ofLegs_congr _ (h.imp fun P l hl => (hl.mem_iff r).symm)).symm
  refine ⟨R, hR, hordered.imp_of_mem fun ha hb => ?_, hmem⟩
  exact (hinc.precedes_iff m ((hmem _).1 ha).1 ((hmem _).1 hb).1).1

theorem ahead_start_merge (m : Merge Record) (Ds : List (Reading Record)) :
    (m.reading Ds).ahead .start = m.combine (Ds.map (·.ahead .start)) := by
  show m.combine (Legs.aheadOf Ds (List.replicate Ds.length .start)) = _
  congr 1
  induction Ds with
  | nil => rfl
  | cons D Ds ih => exact congrArg (D.ahead .start :: ·) ih

/-! ### Plans -/

mutual

/-- What is ahead of the beginning of a plan are the records that it selects. -/
theorem lists_ahead (hs : s.records.HoldsRecords s.content) (plan : Plan)
    (hd : plan.Directed s reverse) :
    ∃ l, (plan.reading s).ahead .start = .ofList l ∧ s.Lists reverse (plan.Selects s) l := by
  match plan with
  | scan range r =>
    rw [Directed] at hd
    obtain rfl := hd.symm
    exact lists_scan hs
  | filter child key equals =>
    rw [Directed] at hd
    obtain ⟨l, hl, hlists⟩ := lists_ahead hs child hd
    refine ⟨l.filter (keyIs key equals), ?_, ?_⟩
    · rw [reading]
      show ((child.reading s).ahead .start).filter _ = _
      rw [hl, Prospect.filter_ofList]
    · rw [Selects]
      exact (hlists.filter _).congr fun r => and_congr_right fun _ => keyIs_iff
  | merge operation legs key r =>
    rw [Directed] at hd
    obtain ⟨hr, hne, hinc, hlegs⟩ := hd
    obtain rfl := hr.symm
    obtain ⟨ls, hls, hlists⟩ := lists_aheads hs legs hlegs
    rw [reading, ahead_start_merge, hls, Selects]
    have hne : selections s legs ≠ [] := by
      rw [selections_eq_map]
      exact mt List.map_eq_nil_iff.1 hne
    exact lists_combine (m := ⟨operation, _, reverse, _⟩) rfl hinc hne hlists
  | dynamic name leg key r =>
    rw [Directed] at hd
    rw [reading, Selects]
    exact lists_ahead hs leg hd

theorem lists_aheads (hs : s.records.HoldsRecords s.content) (legs : List (Alias × Plan))
    (hd : LegsDirected s reverse legs) :
    ∃ ls : List (List Record), (readings s legs).map (·.ahead .start) = ls.map .ofList ∧
      List.Forall₂ (s.Lists reverse) (selections s legs) ls := by
  match legs with
  | [] =>
    rw [readings, selections]
    exact ⟨[], rfl, .nil⟩
  | (name, leg) :: rest =>
    rw [LegsDirected] at hd
    obtain ⟨l, hl, hlists⟩ := lists_ahead hs leg hd.1
    obtain ⟨ls, hls, hrest⟩ := lists_aheads hs rest hd.2
    refine ⟨l :: ls, ?_, ?_⟩
    · rw [readings, List.map_cons, List.map_cons, hl, hls]
    · rw [selections]
      exact .cons hlists hrest

end

/-- Executed without limits, a plan that runs in one direction and merges by keys that increase with
the primary key hands out the stored records that it selects, each once and in order. -/
theorem page_selects (s : Snapshot) (hs : s.records.HoldsRecords s.content) (plan : Plan)
    (hfit : plan.Fits s) (reverse : Bool) (hd : plan.Directed s reverse) (w : World)
    (hw : s.ShownBy w) (p : ScanProperties) (hp : p.Unlimited) :
    ∃ R, (plan.page s.records s.bindings p .start w).2 = .ok (R, .sourceExhausted, .done) ∧
      R.Pairwise (Record.Before reverse) ∧ R.Nodup ∧
      ∀ r, r ∈ R ↔ s.Stored r ∧ plan.Selects s r := by
  obtain ⟨R, hR, hlists⟩ := lists_ahead hs plan hd
  refine ⟨R, page_unlimited_of_ahead hfit hw hp hR, hlists.ordered, ?_, hlists.mem_iff⟩
  refine hlists.ordered.imp fun {a b} hab heq => ?_
  rw [heq] at hab
  exact b.not_before_self reverse hab

/-- Of two sizes, the rows from the second on, backwards. -/
def sampleNested : Plan :=
  .merge .intersection
    [("a", .merge .union [("b", .filter (.scan .all true) (.field "size") [.int 0]),
        ("c", .filter (.scan .all true) (.field "size") [.int 1])] (.onKey (.field "rank")) true),
      ("d", .scan ⟨.inclusive [.int 2], .unbounded⟩ true)] (.onKey (.field "rank")) true

theorem decode_sampleRows : ∀ r ∈ sampleRows, RecordStore.decode r.toWire = .ok r := by
  simp only [sampleRows, List.forall_mem_cons]
  refine ⟨?_, ?_, ?_, ?_, fun r hr => absurd hr List.not_mem_nil⟩ <;> cbv

theorem sample_holdsRecords : sample.records.HoldsRecords sample.content := by
  have hempty : sampleRecords.HoldsRecords [] := ⟨⟨[], rfl⟩, nofun⟩
  have hsaved (i : Nat) (hi : i < sampleRows.length) :
      (RecordStore.Write.save sampleRows[i]).Readable :=
    decode_sampleRows _ (List.getElem_mem hi)
  exact (((hempty.apply (hsaved 0 (by decide))).apply (hsaved 1 (by decide))).apply
    (hsaved 2 (by decide))).apply (hsaved 3 (by decide))

theorem mem_sampleRows_of_stored {r : Record} (h : sample.Stored r) : r ∈ sampleRows := by
  obtain ⟨value, hmem, hr⟩ := h
  have hcontent : sample.content =
      sampleRows.map fun r => (sampleRecords.keyOf r.primaryKey, r.toWire) := by decide
  rw [hcontent, List.mem_map] at hmem
  obtain ⟨r', hr', heq⟩ := hmem
  rw [← (Prod.mk.inj heq).2, decode_sampleRows r' hr'] at hr
  exact Except.ok.inj hr ▸ hr'

theorem increases_rank : (ComparisonKey.onKey (.field "rank")).Increases sample := by
  have hrank : ∀ r ∈ sampleRows,
      (ComparisonKey.onKey (.field "rank")).evaluate [] r = .ok r.primaryKey := by
    simp only [sampleRows, List.forall_mem_cons]
    refine ⟨?_, ?_, ?_, ?_, fun r hr => absurd hr List.not_mem_nil⟩ <;> cbv
  refine ⟨fun r hr => ⟨_, hrank r (mem_sampleRows_of_stored hr)⟩,
    fun a b ha hb hlt t u ht hu => ?_⟩
  have ha := (hrank a (mem_sampleRows_of_stored ha)).symm.trans ht
  have hb := (hrank b (mem_sampleRows_of_stored hb)).symm.trans hu
  rwa [← Except.ok.inj ha, ← Except.ok.inj hb]

theorem page_selects_sample :
    ∃ R, (sampleNested.page sampleRecords [] .backward .start sampleWorld).2 =
        .ok (R, .sourceExhausted, .done) ∧
      R.Pairwise (Record.Before true) ∧ R.Nodup ∧
      ∀ r, r ∈ R ↔ sample.Stored r ∧ sampleNested.Selects sample r :=
  page_selects sample sample_holdsRecords sampleNested (by unfold Fits; decide) true
    (by simp [sampleNested, Directed, LegsDirected, increases_rank]) sampleWorld sample_shownBy
    .backward ⟨rfl, rfl, rfl, rfl⟩

end Plan

end ResumableQuery
