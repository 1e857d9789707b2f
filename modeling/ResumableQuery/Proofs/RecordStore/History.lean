import ResumableQuery.Proofs.Plan.Selection
import ResumableQuery.Proofs.Record

/-!
# A record store is a map in order

After any changes to a record store whose key-value store was empty, a primary key has the record
that was saved under it by the last change of that key, and none if the key was deleted or never
changed (`live`).  Loading gives that record, deleting says whether there is one, and a scan of all
keys hands out the records of all primary keys in the order of the keys (`reads_history`).

`Holds` says how the pairs of the key-value store stand for a map of primary keys to records.  A
change keeps it for the changed map because no two primary keys share a key of the store.
-/

namespace ResumableQuery.RecordStore

open Cursor

namespace Write

/-- The primary key that a change is about. -/
def primaryKey : Write → Tuple
  | save r => r.primaryKey
  | delete primaryKey => primaryKey

/-- The record that a change leaves behind. -/
def record? : Write → Option Record
  | save r => some r
  | delete _ => none

/-- What a change has to be for a store to hold it: a record is well-formed, and the length of its
key fits a machine word. -/
def Fits (s : RecordStore) : Write → Prop
  | save r => r.WellFormed ∧ (s.keyOf r.primaryKey).length < 2 ^ 64
  | delete _ => True

end Write

/-- The record of a primary key after some changes: what the last change of that key left behind. -/
def live (writes : List Write) (primaryKey : Tuple) : Option Record :=
  (writes.reverse.find? fun x => x.primaryKey = primaryKey).bind Write.record?

section Live

variable {writes : List Write} {primaryKey : Tuple} {r : Record}

theorem live_concat (writes : List Write) (x : Write) (primaryKey : Tuple) :
    live (writes ++ [x]) primaryKey =
      if x.primaryKey = primaryKey then x.record? else live writes primaryKey := by
  unfold live
  rw [List.reverse_concat, List.find?_cons]
  by_cases h : x.primaryKey = primaryKey
  · simp [h]
  · simp [h]

theorem save_mem_of_live (h : live writes primaryKey = some r) :
    Write.save r ∈ writes ∧ r.primaryKey = primaryKey := by
  unfold live at h
  obtain ⟨x, hx, hr⟩ := Option.bind_eq_some_iff.1 h
  have hmem := List.mem_reverse.1 (List.mem_of_find?_eq_some hx)
  have hkey : x.primaryKey = primaryKey := by simpa using List.find?_some hx
  cases x with
  | save r' =>
    cases hr
    exact ⟨hmem, hkey⟩
  | delete => cases hr

end Live

/-! ### Pairs that stand for a map -/

/-- The pairs of a store are those of the records of a map, each under the key of its primary
key. -/
structure Holds (s : RecordStore) (content : Store) (m : Tuple → Option Record) : Prop where
  sorted : content.Sorted
  mem_iff : ∀ e, e ∈ content ↔
    ∃ r, m r.primaryKey = some r ∧ e = (s.keyOf r.primaryKey, r.toWire)

variable {s : RecordStore} {content : Store} {m : Tuple → Option Record}

theorem keyOf_injective (s : RecordStore) : Function.Injective s.keyOf := by
  intro t u h
  exact Tuple.pack_injective (List.append_cancel_left h)

theorem holds_nil (s : RecordStore) : s.Holds [] (live []) := by
  refine ⟨Store.sorted_nil, fun e => ⟨nofun, ?_⟩⟩
  rintro ⟨r, hr, -⟩
  cases hr

theorem live_concat_eq_some_iff {writes : List Write} {x : Write} {r : Record} :
    live (writes ++ [x]) r.primaryKey = some r ↔
      x.primaryKey = r.primaryKey ∧ x.record? = some r ∨
        x.primaryKey ≠ r.primaryKey ∧ live writes r.primaryKey = some r := by
  rw [live_concat]
  by_cases hkey : x.primaryKey = r.primaryKey <;> simp [hkey]

theorem Holds.apply {writes : List Write} (h : s.Holds content (live writes)) (x : Write) :
    s.Holds (x.apply s content) (live (writes ++ [x])) := by
  cases x with
  | save r =>
    refine ⟨h.sorted.set _ _, fun e => h.sorted.mem_insert_iff.trans ?_⟩
    simp only [live_concat_eq_some_iff, h.mem_iff, Write.record?, Write.primaryKey]
    constructor
    · rintro (rfl | ⟨hne, r', hr', rfl⟩)
      · exact ⟨r, .inl ⟨rfl, rfl⟩, rfl⟩
      · exact ⟨r', .inr ⟨fun heq => hne (congrArg s.keyOf heq.symm), hr'⟩, rfl⟩
    · rintro ⟨r', ⟨-, hr'⟩ | ⟨hne, hr'⟩, rfl⟩
      · cases hr'
        exact .inl rfl
      · exact .inr ⟨fun heq => hne (s.keyOf_injective heq).symm, r', hr', rfl⟩
  | delete primaryKey =>
    refine ⟨h.sorted.clear _, fun e => h.sorted.mem_erase_iff.trans ?_⟩
    simp only [live_concat_eq_some_iff, h.mem_iff, Write.record?, Write.primaryKey]
    constructor
    · rintro ⟨hne, r', hr', rfl⟩
      exact ⟨r', .inr ⟨fun heq => hne (congrArg s.keyOf heq.symm), hr'⟩, rfl⟩
    · rintro ⟨r', ⟨-, hr'⟩ | ⟨hne, hr'⟩, rfl⟩
      · cases hr'
      · exact ⟨fun heq => hne (s.keyOf_injective heq).symm, r', hr', rfl⟩

/-- What is under the key of a primary key is the record that the map has for it. -/
theorem Holds.get? (h : s.Holds content m) (hm : ∀ t r, m t = some r → r.primaryKey = t)
    (primaryKey : Tuple) :
    content.get? (s.keyOf primaryKey) = (m primaryKey).map Record.toWire := by
  rw [Store.get?]
  cases hr : m primaryKey with
  | some r =>
    obtain rfl := hm _ _ hr
    exact h.sorted.find?_of_mem ((h.mem_iff _).2 ⟨r, hr, rfl⟩)
  | none =>
    cases hv : Ordered.find? (s.keyOf primaryKey) content with
    | none => rfl
    | some value =>
      obtain ⟨r, hr', heq⟩ := (h.mem_iff _).1 (Ordered.mem_of_find?_eq_some hv)
      rw [s.keyOf_injective (Prod.mk.inj heq).1, hr'] at hr
      cases hr

/-! ### Changes to a store that does not fail -/

theorem call_eq_self {w : World} (h : w.callsLeft = none) : w.call = .ok w := by
  rw [World.call, h]

theorem write_eq_setStore {w : World} (h : w.callsLeft = none) (s : RecordStore) (x : Write) :
    s.write w x = w.setStore s.store (x.apply s (w.store s.store)) := by
  cases x with
  | save r =>
    rw [write, save, World.set, call_eq_self h]
    rfl
  | delete primaryKey =>
    rw [write, delete, World.clear, call_eq_self h]
    rfl

/-- After changes to an empty store no call fails still, budgets are what they were, and the store
holds the records that are live. -/
theorem holds_writeAll {w : World} (hcalls : w.callsLeft = none) (hfresh : w.store s.store = [])
    (writes : List Write) :
    (s.writeAll writes w).callsLeft = none ∧ (s.writeAll writes w).budgets = w.budgets ∧
      s.Holds ((s.writeAll writes w).store s.store) (live writes) := by
  induction writes using List.reverseRecOn with
  | nil =>
    refine ⟨hcalls, rfl, ?_⟩
    show s.Holds (w.store s.store) _
    rw [hfresh]
    exact s.holds_nil
  | append_singleton writes x ih =>
    obtain ⟨hcalls, hbudgets, hholds⟩ := ih
    rw [writeAll, List.foldl_concat, ← writeAll, write_eq_setStore hcalls, World.store_setStore]
    exact ⟨hcalls, hbudgets, hholds.apply x⟩

theorem decodeFound_some {value : Bytes} {r : Record} (h : decode value = .ok r) :
    decodeFound (.ok (some value)) = .ok (some r) := by
  show (decode value >>= fun r => pure (some r)) = _
  rw [h]
  rfl

/-! ### Scans -/

section Scan

variable {writes : List Write} (h : s.Holds content (live writes))
  (hfits : ∀ x ∈ writes, x.Fits s)

include h hfits

theorem Holds.decode_of_mem {e : Bytes × Bytes} (he : e ∈ content) :
    decode e.2 = .ok (recordIn e) ∧ e.1 = s.keyOf (recordIn e).primaryKey ∧
      live writes (recordIn e).primaryKey = some (recordIn e) := by
  obtain ⟨r, hr, rfl⟩ := (h.mem_iff e).1 he
  have hdecode := decode_toWire (hfits _ (save_mem_of_live hr).1).1
  rw [recordIn_eq (e := (s.keyOf r.primaryKey, r.toWire)) hdecode]
  exact ⟨hdecode, rfl, hr⟩

theorem Holds.keysFit : KeyScan.KeysFit content := by
  intro e he
  obtain ⟨r, hr, rfl⟩ := (h.mem_iff e).1 he
  exact (hfits _ (save_mem_of_live hr).1).2

theorem Holds.mem_records_iff {r : Record} :
    r ∈ content.map recordIn ↔ live writes r.primaryKey = some r := by
  rw [List.mem_map]
  constructor
  · rintro ⟨e, he, rfl⟩
    exact (h.decode_of_mem hfits he).2.2
  · intro hr
    have hmem := (h.mem_iff _).2 ⟨r, hr, rfl⟩
    exact ⟨_, hmem, recordIn_eq (decode_toWire (hfits _ (save_mem_of_live hr).1).1)⟩

theorem Holds.pairwise_records :
    (content.map recordIn).Pairwise fun a b => compare a.primaryKey b.primaryKey = .lt := by
  refine List.pairwise_map.2 (h.sorted.imp_of_mem fun {e e'} he he' hlt => ?_)
  rw [(h.decode_of_mem hfits he).2.1, (h.decode_of_mem hfits he').2.1] at hlt
  exact (before_keyOf_iff _ _).1 (Bytes.before_iff.2 hlt)

/-- A scan of all keys has all pairs ahead, in its direction. -/
theorem Holds.ahead_start {t : Tuple} (ht : s.subspace = t.pack) (reverse : Bool)
    (budget : BudgetId) :
    (((s.keyScan .all reverse budget).reading content).tryMap decodePair).ahead .start =
      .ofList (if reverse then (content.map recordIn).reverse else content.map recordIn) := by
  have hmem : ∀ e ∈ if reverse then content.reverse else content, e ∈ content := by
    intro e he
    split at he
    · exact List.mem_reverse.1 he
    · exact he
  have hpending : (s.keyScan .all reverse budget).pending content none =
      if reverse then content.reverse else content := by
    refine List.filter_eq_self.2 fun e he => ?_
    show (TupleRange.all.toKeyRange s.subspace).contains e.1 = true
    rw [(h.decode_of_mem hfits (hmem e he)).2.1, keyOf, ht, ← Tuple.pack_append]
    exact TupleRange.contains_all_toKeyRange (.inl (List.prefix_append _ _))
  have hmap : (if reverse then (content.map recordIn).reverse else content.map recordIn) =
      (if reverse then content.reverse else content).map recordIn := by
    rw [← List.map_reverse, apply_ite (List.map recordIn)]
  show (Prospect.ofList ((s.keyScan .all reverse budget).pendingAt content .start)).tryMap _ = _
  rw [KeyScan.pendingAt_of_position (c := .start) (p := none) (fun h => by cases h) rfl,
    Option.map_none, hpending, hmap]
  refine Prospect.tryMap_ofList fun e he => ?_
  rw [decodePair, (h.decode_of_mem hfits (hmem e he)).1]
  rfl

/-- Opened at the beginning, a scan of all keys hands out the records of all pairs. -/
theorem Holds.scan_all {t : Tuple} (ht : s.subspace = t.pack) {w : World}
    (hw : w.store s.store = content) (hcalls : w.callsLeft = none) (reverse : Bool)
    {budget : BudgetId} (hbudget : (w.budget budget).limit = none) :
    ∃ rows, s.scan w .all .start (ScanProperties.forward.withReverse reverse) budget = .ok rows ∧
      ((Handle.new rows).collect w).2 =
        .ok (if reverse then (content.map recordIn).reverse else content.map recordIn,
          .sourceExhausted, .done) := by
  obtain ⟨pairs, hpairs, hfollows⟩ := KeyScan.follows_openAt false
    (s := s.keyScan .all reverse budget) h.sorted (h.keysFit hfits) hw
    (Reading.issued_start _)
  have hrecords := (hfollows.tryMap decodePair).skipThenLimit
    (p := ScanProperties.forward.withReverse reverse) (fun _ => ⟨rfl, rfl⟩) rfl nofun
  refine ⟨_, ?_, collect_of_ahead hrecords (h.ahead_start hfits ht reverse budget)
    ⟨hw, hcalls, fun _ => hbudget⟩⟩
  rw [scan]
  show (s.keyScan .all reverse budget).openAt w .start >>= _ = _
  rw [hpairs]
  rfl

end Scan

theorem Holds.withConfig (h : s.Holds content m) (config : Config) :
    RecordStore.Holds { s with config } content m := ⟨h.sorted, h.mem_iff⟩

/-- After any changes to a record store that was empty, loading a primary key gives the record that
was last saved under it and not deleted since, deleting says whether there is one, and a scan of all
keys hands out all of these records in order of their primary keys, or in the reverse order, however
many pairs it reads at a time. -/
theorem reads_history (s : RecordStore) {t : Tuple} (ht : s.subspace = t.pack) (w : World)
    (hfresh : w.store s.store = []) (hcalls : w.callsLeft = none) (writes : List Write)
    (hfits : ∀ x ∈ writes, x.Fits s) :
    (∀ r, (s.save r (s.writeAll writes w)).2 = .ok ()) ∧
    (∀ primaryKey, s.load primaryKey (s.writeAll writes w) =
      (s.writeAll writes w, .ok (live writes primaryKey))) ∧
    (∀ primaryKey, (s.delete primaryKey (s.writeAll writes w)).2 =
      .ok (live writes primaryKey).isSome) ∧
    ∃ records : List Record,
      records.Pairwise (fun a b => compare a.primaryKey b.primaryKey = .lt) ∧
      (∀ r, r ∈ records ↔ live writes r.primaryKey = some r) ∧
      ∀ (config : Config) (reverse : Bool) (budget : BudgetId), (w.budget budget).limit = none →
        ∃ rows, RecordStore.scan { s with config } (s.writeAll writes w) .all .start
            (ScanProperties.forward.withReverse reverse) budget = .ok rows ∧
          ((Handle.new rows).collect (s.writeAll writes w)).2 =
            .ok (if reverse then records.reverse else records, .sourceExhausted, .done) := by
  obtain ⟨hcalls, hbudgets, hholds⟩ := holds_writeAll hcalls hfresh writes
  have hget := hholds.get? fun _ _ hr => (save_mem_of_live hr).2
  refine ⟨fun r => ?_, fun primaryKey => ?_, fun primaryKey => ?_, _, hholds.pairwise_records hfits,
    fun r => hholds.mem_records_iff hfits, fun config reverse budget hbudget => ?_⟩
  · rw [save, World.set, call_eq_self hcalls]
  · rw [load, World.get, call_eq_self hcalls]
    show (s.writeAll writes w, decodeFound (.ok _)) = _
    rw [hget]
    cases hr : live writes primaryKey with
    | none => rfl
    | some r =>
      have hdecode := decode_toWire (hfits _ (save_mem_of_live hr).1).1
      rw [Option.map_some, decodeFound_some hdecode]
  · rw [delete, World.clear, call_eq_self hcalls]
    show Except.ok (Store.get? _ _).isSome = _
    rw [hget, Option.isSome_map]
  · refine (hholds.withConfig config).scan_all hfits ht rfl hcalls reverse ?_
    rw [World.budget, hbudgets]
    exact hbudget

/-! ### A short history -/

/-- A note with a nested message and a list. -/
def sampleNote (id : Int64) (title : String) : Record :=
  ⟨"note", [.int id, .text title], [("body", .message [("lines", .repeated [.scalar (.int 7)]),
    ("seen", .scalar (.bool true))]), ("title", .scalar (.text title))]⟩

def sampleNotes : RecordStore := ⟨"main", Tuple.pack [.text "notes"], .standard⟩

/-- Two notes are saved, one of them is deleted, and a third one is saved. -/
def sampleHistory : List Write :=
  [.save (sampleNote 2 "b"), .save (sampleNote 1 "a"), .delete [.int 2, .text "b"],
    .save (sampleNote 3 "c")]

theorem wellFormed_sampleNote {id : Int64} {title : String}
    (h : (sampleNote id title).toWire.length < 2 ^ 64) : (sampleNote id title).WellFormed := by
  refine ⟨?_, ?_, h⟩
  · show List.Pairwise (fun a b : String × FieldValue => compare a.1 b.1 = .lt) _
    simp [sampleNote]
    decide
  · have hbody : Ordered.Sorted [("lines", FieldValue.repeated [.scalar (.int 7)]),
        ("seen", .scalar (.bool true))] := by
      show List.Pairwise (fun a b : String × FieldValue => compare a.1 b.1 = .lt) _
      simp
      decide
    simp [sampleNote, FieldValue.FieldsInOrder, FieldValue.InOrder, FieldValue.ItemsInOrder, hbody]

theorem fits_sampleHistory : ∀ x ∈ sampleHistory, x.Fits sampleNotes := by
  simp only [sampleHistory, List.forall_mem_cons]
  refine ⟨⟨wellFormed_sampleNote ?_, ?_⟩, ⟨wellFormed_sampleNote ?_, ?_⟩, trivial,
    ⟨wellFormed_sampleNote ?_, ?_⟩, nofun⟩ <;> decide +kernel

theorem reads_history_sample :
    (sampleNotes.load [.int 1, .text "a"] (sampleNotes.writeAll sampleHistory .empty)).2 =
        .ok (some (sampleNote 1 "a")) ∧
      (sampleNotes.delete [.int 2, .text "b"] (sampleNotes.writeAll sampleHistory .empty)).2 =
        .ok false := by
  obtain ⟨-, hload, hdelete, -⟩ := reads_history sampleNotes rfl .empty rfl rfl sampleHistory
    fits_sampleHistory
  exact ⟨congrArg Prod.snd (hload _), hdelete _⟩

end ResumableQuery.RecordStore
