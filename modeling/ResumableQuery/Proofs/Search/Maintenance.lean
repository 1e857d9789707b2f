import ResumableQuery.Proofs.Search.Directory
import ResumableQuery.Session.Basic

/-!
# An index mirrors its records

Records are replaced one at a time, and the index is told the old and the new version of each.  If
the old version is always the one that the last successful replacement left, then every partition
holds one document for each record that belongs to it, with the tokens of its texts, and no other
(`Session.mirrors_history`).

`Mirrors` is the invariant.  A replacement first takes out the document of the old version, after
which no partition holds a document of the primary key, and then puts in one for the new version;
where partition and indexed values are the same before and after, the documents are so too.
-/

namespace ResumableQuery

namespace Search.Index

/-! ### Records that belong to a partition -/

/-- The record belongs to the partition of a grouping key: it is of the type that the index covers,
and the grouping expression yields the key. -/
def Belongs (i : Index) (groupingKey : Tuple) (r : Record) : Prop :=
  i.definition.covers r = true ∧ i.definition.grouping.evaluate r = .ok groupingKey

/-- The texts of the indexed fields of a record, in declared order. -/
def declaredTexts (i : Index) (r : Record) : List (String × String) :=
  texts (i.definition.textFields.flatMap (IndexDefinition.fieldsAt r))

/-- The document of a record. -/
def document (i : Index) (r : Record) : StoredDocument :=
  .ofTexts r.primaryKey (i.declaredTexts r)

/-- The document is that of a version of a record, which belongs to the partition. -/
def Has (i : Index) (version : Option Record) (groupingKey : Tuple) (x : StoredDocument) : Prop :=
  ∃ r, version = some r ∧ i.Belongs groupingKey r ∧ x = i.document r

variable {i : Index} {d d' : Directory} {groupingKey pk : Tuple} {old new : Option Record}
  {x : StoredDocument} {fields : Option (Tuple × List DocumentField)}

/-- What the index sees of a record: nothing if it is of another type, and otherwise its partition
and the values of the declared fields. -/
theorem fieldsOf_some {r : Record} (h : i.fieldsOf (some r) = .ok fields) :
    i.definition.covers r = false ∧ fields = none ∨
      ∃ g, i.Belongs g r ∧
        fields = some (g, i.definition.textFields.flatMap (IndexDefinition.fieldsAt r)) := by
  rw [fieldsOf, IndexDefinition.documentFields] at h
  cases hcovers : i.definition.covers r with
  | false =>
    rw [hcovers] at h
    exact .inl ⟨rfl, (Except.ok.inj h).symm⟩
  | true =>
    rw [hcovers] at h
    cases heval : i.definition.grouping.evaluate r with
    | error e =>
      rw [heval] at h
      cases h
    | ok g =>
      rw [heval] at h
      exact .inr ⟨g, ⟨hcovers, heval⟩, (Except.ok.inj h).symm⟩

/-- What the index sees of a version of a record: nothing where no partition has a document for it,
and otherwise its partition and its indexed values. -/
theorem fieldsOf_cases (h : i.fieldsOf new = .ok fields) :
    fields = none ∧ (∀ g x, ¬i.Has new g x) ∨
      ∃ r g values, new = some r ∧ fields = some (g, values) ∧ texts values = i.declaredTexts r ∧
        ∀ g' x, i.Has new g' x ↔ g' = g ∧ x = i.document r := by
  cases new with
  | none =>
    obtain rfl := Except.ok.inj h
    exact .inl ⟨rfl, fun _ _ ⟨_, hr, _⟩ => nomatch hr⟩
  | some r =>
    rcases fieldsOf_some h with ⟨hcovers, rfl⟩ | ⟨g, belongs, rfl⟩
    · refine .inl ⟨rfl, fun g x ⟨r', hr, hbelongs, _⟩ => ?_⟩
      rw [Belongs, ← Option.some.inj hr, hcovers] at hbelongs
      exact Bool.false_ne_true hbelongs.1
    · refine .inr ⟨r, g, _, rfl, rfl, rfl, fun g' x => ?_⟩
      constructor
      · rintro ⟨r', hr, ⟨-, hg⟩, rfl⟩
        obtain rfl := Option.some.inj hr
        rw [belongs.2] at hg
        exact ⟨(Except.ok.inj hg).symm, rfl⟩
      · rintro ⟨rfl, rfl⟩
        exact ⟨r, rfl, belongs, rfl⟩

/-- The same partition and the same indexed values make the same document. -/
theorem has_congr (hold : i.fieldsOf old = .ok fields) (hnew : i.fieldsOf new = .ok fields)
    (hkeys : ∀ r ∈ old, ∀ r' ∈ new, r.primaryKey = r'.primaryKey) :
    i.Has old groupingKey x ↔ i.Has new groupingKey x := by
  rcases fieldsOf_cases hold with ⟨rfl, hno⟩ | ⟨r, g, values, rfl, rfl, htexts, hhas⟩
  · rcases fieldsOf_cases hnew with ⟨-, hno'⟩ | ⟨r, g, values, -, hfields, -⟩
    · exact iff_of_false (hno _ _) (hno' _ _)
    · cases hfields
  · rcases fieldsOf_cases hnew with ⟨hfields, -⟩ | ⟨r', g', values', rfl, hfields, htexts', hhas'⟩
    · cases hfields
    · cases hfields
      have hdocument : i.document r = i.document r' := by
        rw [document, document, hkeys r rfl r' rfl, ← htexts, ← htexts']
      rw [hhas, hhas', hdocument]

/-! ### The invariant -/

/-- The partitions of a directory mirror the current versions of records: each is consistent and
holds the documents of the records that belong to it. -/
structure Mirrors (i : Index) (d : Directory) (current : Tuple → Option Record) : Prop where
  sorted : Ordered.Sorted d
  named : ∀ e ∈ d, e.1.1 = i.name
  consistent : ∀ g, (d.partition (i.place g)).Consistent
  holds_iff : ∀ g x, (d.partition (i.place g)).Holds x ↔ i.Has (current x.primaryKey) g x
  keyed : ∀ pk r, current pk = some r → r.primaryKey = pk

theorem mirrors_nil (i : Index) : i.Mirrors [] fun _ => none where
  sorted := Ordered.sorted_nil
  named := nofun
  consistent _ := Partition.consistent_empty ..
  holds_iff _ _ := iff_of_false Partition.not_holds_empty fun ⟨_, hr, _⟩ => nomatch hr
  keyed := nofun

theorem place_injective (i : Index) : Function.Injective i.place :=
  fun _ _ h => congrArg Prod.snd h

/-- What a directory is after a change, when the documents of one primary key are left out. -/
structure Without (i : Index) (d d' : Directory) (pk : Tuple) : Prop where
  sorted : Ordered.Sorted d'
  named : ∀ e ∈ d', e.1.1 = i.name
  consistent : ∀ g, (d'.partition (i.place g)).Consistent
  holds_iff : ∀ g x, (d'.partition (i.place g)).Holds x ↔
    (d.partition (i.place g)).Holds x ∧ x.primaryKey ≠ pk

variable {current : Tuple → Option Record}

/-- Taking out the document of the old version leaves no document of the primary key. -/
theorem Mirrors.remove (h : i.Mirrors d current) (hold : i.fieldsOf (current pk) = .ok fields) :
    i.Without d (i.remove (current pk) fields d) pk := by
  have other {g x} (hno : ∀ x, ¬i.Has (current pk) g x) :
      (d.partition (i.place g)).Holds x ↔
        (d.partition (i.place g)).Holds x ∧ x.primaryKey ≠ pk := by
    refine ⟨fun hx => ⟨hx, fun hpk => hno x ?_⟩, And.left⟩
    rw [← hpk]
    exact (h.holds_iff g x).1 hx
  rcases fieldsOf_cases hold with ⟨rfl, hno⟩ | ⟨r, g₀, values, hr, rfl, -, hhas⟩
  · have same : i.remove (current pk) none d = d := by
      cases current pk <;> rfl
    rw [same]
    exact ⟨h.sorted, h.named, h.consistent, fun g x => other (hno g)⟩
  · rw [hr, Index.remove, h.keyed pk r hr]
    refine ⟨Directory.sorted_write h.sorted _ _, fun e he => ?_, fun g => ?_, fun g x => ?_⟩
    · rcases Directory.mem_write he with he | he
      · rw [he]
        rfl
      · exact h.named e he
    · rw [Directory.partition_write]
      split
      · exact (h.consistent g₀).delete pk
      · exact h.consistent g
    · rw [Directory.partition_write]
      split
      · rename_i hg
        rw [place_injective i hg]
        exact (h.consistent g₀).holds_delete
      · rename_i hg
        exact other fun x hx => hg (congrArg i.place ((hhas g x).1 hx).1)

/-- Putting in a document for the new version makes up for the one that was taken out. -/
theorem Without.put (h : i.Without d d' pk) (hd : i.Mirrors d current)
    (hkey : ∀ r ∈ new, r.primaryKey = pk) (hnew : i.fieldsOf new = .ok fields) :
    i.Mirrors (i.put new fields d') (Function.update current pk new) := by
  have keyed : ∀ pk' r, Function.update current pk new pk' = some r → r.primaryKey = pk' := by
    intro pk' r hr
    by_cases hpk : pk' = pk
    · subst hpk
      rw [Function.update_self] at hr
      exact hkey r hr
    · rw [Function.update_of_ne hpk] at hr
      exact hd.keyed pk' r hr
  -- Documents of other primary keys stay, and those of this one are given by the new version.
  have combined (g : Tuple) (x : StoredDocument) :
      i.Has (Function.update current pk new x.primaryKey) g x ↔
        i.Has new g x ∨ (d'.partition (i.place g)).Holds x := by
    rw [h.holds_iff, hd.holds_iff]
    by_cases hpk : x.primaryKey = pk
    · rw [hpk, Function.update_self]
      exact ⟨.inl, fun hx => hx.resolve_right fun hx => hx.2 rfl⟩
    · rw [Function.update_of_ne hpk, or_iff_right, and_iff_left hpk]
      rintro ⟨r, hr, -, rfl⟩
      exact hpk (hkey r hr)
  rcases fieldsOf_cases hnew with ⟨rfl, hno⟩ | ⟨r, g₀, values, rfl, rfl, htexts, hhas⟩
  · have same : i.put new none d' = d' := by
      cases new <;> rfl
    rw [same]
    refine ⟨h.sorted, h.named, h.consistent, fun g x => ?_, keyed⟩
    rw [combined, or_iff_right (hno g x)]
  · have hpk : r.primaryKey = pk := hkey r rfl
    rw [Index.put, htexts]
    refine ⟨Directory.sorted_write h.sorted _ _, fun e he => ?_, fun g => ?_, fun g x => ?_, keyed⟩
    · rcases Directory.mem_write he with he | he
      · rw [he]
        rfl
      · exact h.named e he
    · rw [Directory.partition_write]
      split
      · exact (h.consistent g₀).add _ _
      · exact h.consistent g
    · rw [combined, hhas, Directory.partition_write]
      split
      · rename_i hg
        rw [place_injective i hg, (h.consistent g₀).holds_add, h.holds_iff, hpk, document,
          and_assoc, and_self_iff, eq_self_iff_true, true_and, hpk]
      · rename_i hg
        exact (or_iff_right fun hx => hg (congrArg i.place hx.1)).symm

/-- A replacement carries the mirror over to the new version. -/
theorem Mirrors.update (h : i.Mirrors d current) (hkey : ∀ r ∈ new, r.primaryKey = pk)
    (hok : i.update (current pk) new d = .ok d') :
    i.Mirrors d' (Function.update current pk new) := by
  rw [Index.update] at hok
  cases hold : i.fieldsOf (current pk) with
  | error e =>
    rw [hold] at hok
    cases hok
  | ok oldFields =>
    cases hnew : i.fieldsOf new with
    | error e =>
      rw [hold, hnew] at hok
      cases hok
    | ok newFields =>
      rw [hold, hnew] at hok
      change (if (oldFields == newFields) = true then Except.ok d
        else .ok (i.put new newFields (i.remove (current pk) oldFields d))) = .ok d' at hok
      have without := h.remove hold
      by_cases hsame : oldFields = newFields
      · subst hsame
        rw [if_pos (beq_self_eq_true _)] at hok
        obtain rfl := Except.ok.inj hok
        have mirrors := without.put h hkey hnew
        refine ⟨h.sorted, h.named, h.consistent, fun g x => ?_, mirrors.keyed⟩
        rw [h.holds_iff]
        by_cases hpk : x.primaryKey = pk
        · rw [hpk, Function.update_self]
          exact has_congr hold hnew fun r hr r' hr' =>
            (h.keyed pk r hr).trans (hkey r' hr').symm
        · rw [Function.update_of_ne hpk]
      · rw [if_neg (mt beq_iff_eq.1 hsame)] at hok
        obtain rfl := Except.ok.inj hok
        exact without.put h hkey hnew

/-- The documents of a primary key: one where its current record belongs, and none elsewhere. -/
theorem Mirrors.documentsOf_eq (h : i.Mirrors d current) (g pk : Tuple) :
    (∀ r, current pk = some r → i.Belongs g r →
        (d.partition (i.place g)).documentsOf pk = [i.document r]) ∧
      ((∀ r, current pk = some r → ¬i.Belongs g r) →
        (d.partition (i.place g)).documentsOf pk = []) := by
  constructor
  · intro r hr hbelongs
    obtain rfl := h.keyed pk r hr
    exact (h.consistent g).documentsOf_eq_singleton ((h.holds_iff g (i.document r)).2
      ⟨r, hr, hbelongs, rfl⟩)
  · intro hno
    refine Partition.documentsOf_eq_nil fun x hpk hx => ?_
    obtain ⟨r, hr, hbelongs, -⟩ := (h.holds_iff g x).1 hx
    exact hno r (hpk ▸ hr) hbelongs

end Search.Index

/-! ### Histories -/

namespace Session

open Search

/-- A record is replaced: its primary key, its new version unless it is deleted, and whether the
record store is to follow. -/
structure Replacement where
  primaryKey : Tuple
  new : Option Record
  store : Bool

/-- A session, and the current version of the record of each primary key. -/
abbrev Maintained := Session × (Tuple → Option Record)

/-- Replaces the current version of a record.  A failed replacement leaves it current. -/
def replace (m : Maintained) (x : Replacement) : Maintained :=
  match m.1.update (m.2 x.primaryKey) x.new x.store with
  | (s, .ok ()) => (s, Function.update m.2 x.primaryKey x.new)
  | (s, .error _) => (s, m.2)

/-- Replaces records one after the other. -/
def replaceAll (m : Maintained) (history : List Replacement) : Maintained :=
  history.foldl replace m

variable {s : Session}

theorem directory_storeRecord (s : Session) (old new : Option Record) (w : World) :
    (s.storeRecord old new w).1.directory = w.directory := by
  cases new with
  | some r => exact w.directory_set ..
  | none =>
    cases old with
    | none => rfl
    | some r =>
      have := w.directory_clear s.records.store (s.records.keyOf r.primaryKey)
      rw [storeRecord, RecordStore.delete]
      split <;> (rename_i h; rw [h] at this; exact this)

theorem directory_act_storeRecord (s : Session) (old new : Option Record) :
    (s.act (s.storeRecord old new)).1.world.directory = s.world.directory :=
  directory_storeRecord ..

/-- A replacement in a session either does to the partitions what it does for the index, or it fails
and leaves all partitions as they are. -/
theorem update_cases (s : Session) (old new : Option Record) (store : Bool) :
    (s.update old new store).1.index = s.index ∧
      ((s.update old new store).2 = .ok () ∧ s.index.update old new s.world.directory =
          .ok (s.update old new store).1.world.directory ∨
        ∃ e, (s.update old new store).2 = .error e ∧
          (s.update old new store).1.world.directory = s.world.directory) := by
  have hstore := s.directory_act_storeRecord old new
  have hindex : (s.act (s.storeRecord old new)).1.index = s.index := rfl
  rw [update]
  generalize hstored : (if store then s.act (s.storeRecord old new) else (s, .ok ())) = stored
  obtain ⟨t, result⟩ := stored
  have ht : t.index = s.index ∧ t.world.directory = s.world.directory := by
    cases store with
    | false =>
      obtain ⟨rfl, -⟩ := Prod.mk.inj hstored
      exact ⟨rfl, rfl⟩
    | true =>
      obtain rfl := congrArg Prod.fst hstored
      exact ⟨rfl, hstore⟩
  obtain ⟨hi, hd⟩ := ht
  cases result with
  | error e => exact ⟨hi, .inr ⟨_, rfl, hd⟩⟩
  | ok u =>
    dsimp only
    cases hupdate : t.index.update old new t.world.directory with
    | error e => exact ⟨hi, .inr ⟨_, rfl, hd⟩⟩
    | ok d =>
      rw [hi, hd] at hupdate
      exact ⟨hi, .inl ⟨rfl, hupdate⟩⟩

/-- What holds before a replacement of the current version holds after it. -/
theorem mirrors_replace {m : Maintained} (h : m.1.index.Mirrors m.1.world.directory m.2)
    {x : Replacement} (hx : ∀ r ∈ x.new, r.primaryKey = x.primaryKey) :
    (replace m x).1.index = m.1.index ∧
      m.1.index.Mirrors (replace m x).1.world.directory (replace m x).2 := by
  obtain ⟨hindex, hcases⟩ := m.1.update_cases (m.2 x.primaryKey) x.new x.store
  rw [replace]
  generalize m.1.update (m.2 x.primaryKey) x.new x.store = updated at hindex hcases
  obtain ⟨t, result⟩ := updated
  rcases hcases with ⟨hok, hupdate⟩ | ⟨e, he, hd⟩
  · obtain rfl : result = .ok () := hok
    exact ⟨hindex, h.update hx hupdate⟩
  · obtain rfl : result = .error e := he
    refine ⟨hindex, ?_⟩
    show m.1.index.Mirrors t.world.directory m.2
    rw [show t.world.directory = m.1.world.directory from hd]
    exact h

theorem mirrors_replaceAll {m : Maintained} (h : m.1.index.Mirrors m.1.world.directory m.2)
    {history : List Replacement} (hx : ∀ x ∈ history, ∀ r ∈ x.new, r.primaryKey = x.primaryKey) :
    (replaceAll m history).1.index = m.1.index ∧
      m.1.index.Mirrors (replaceAll m history).1.world.directory (replaceAll m history).2 := by
  induction history generalizing m with
  | nil => exact ⟨rfl, h⟩
  | cons x history ih =>
    obtain ⟨hx, hhistory⟩ := List.forall_mem_cons.1 hx
    obtain ⟨hindex, hmirrors⟩ := mirrors_replace h hx
    rw [← hindex] at hmirrors
    obtain ⟨hindex', hmirrors'⟩ := ih hmirrors hhistory
    rw [hindex] at hindex' hmirrors'
    exact ⟨hindex', hmirrors'⟩

/-- After any history of replacements that begins with an empty directory, a partition holds exactly
one document for each current record of the indexed type whose grouping expression yields its key,
with the tokens of the texts of the record in declared order; there are no partitions but those of
the index.  A replacement that fails, whatever it replaces, leaves all partitions as they are. -/
theorem mirrors_history (s : Session) (hempty : s.world.directory = []) (history : List Replacement)
    (hkeys : ∀ x ∈ history, ∀ r ∈ x.new, r.primaryKey = x.primaryKey) {t : Session}
    {current : Tuple → Option Record}
    (hrun : replaceAll (s, fun _ => none) history = (t, current)) :
    (∀ g pk,
        (∀ r, current pk = some r → s.index.Belongs g r →
          ∃ d, (t.world.directory.partition (s.index.place g)).documentsOf pk = [d] ∧
            ∀ name, d.tokens name =
              ((s.index.declaredTexts r).filter (·.1 == name)).flatMap fun x => tokenTexts x.2) ∧
        ((∀ r, current pk = some r → ¬s.index.Belongs g r) →
          (t.world.directory.partition (s.index.place g)).documentsOf pk = [])) ∧
      (∀ e ∈ t.world.directory, ∃ g, e.1 = s.index.place g) ∧
      ∀ old new store e, (t.update old new store).2 = .error e →
        (t.update old new store).1.world.directory = t.world.directory := by
  have start : s.index.Mirrors s.world.directory fun _ => none :=
    hempty ▸ s.index.mirrors_nil
  obtain ⟨-, mirrors⟩ := mirrors_replaceAll (m := (s, fun _ => none)) start hkeys
  rw [hrun] at mirrors
  refine ⟨fun g pk => ⟨fun r hr hbelongs => ?_, ?_⟩, fun e he => ?_, fun old new store e he => ?_⟩
  · exact ⟨_, (mirrors.documentsOf_eq g pk).1 r hr hbelongs, StoredDocument.tokens_ofTexts _ _⟩
  · exact (mirrors.documentsOf_eq g pk).2
  · exact ⟨e.1.2, Prod.ext (mirrors.named e he) rfl⟩
  · rcases (t.update_cases old new store).2 with ⟨hok, -⟩ | ⟨-, -, hd⟩
    · rw [hok] at he
      cases he
    · exact hd

/-- Notes are indexed by title and lines, with a partition for each box. -/
def sampleSession : Session :=
  .new [.text "s"] .standard ⟨"notes", "note", ["title", "lines"], .field "box", false⟩

def sampleNote (box : FieldValue) (title : String) : Record :=
  ⟨"note", [.int 1], [("box", box), ("lines", .repeated [.scalar (.text "One line")]),
    ("title", .scalar (.text title))]⟩

/-- A note is saved and moved to another box.  Putting it into no box that is a single value
fails. -/
def sampleHistory : List Replacement :=
  [⟨[.int 1], some (sampleNote (.scalar (.text "in")) "Red fox"), true⟩,
    ⟨[.int 1], some (sampleNote (.scalar (.text "out")) "Blue fox"), true⟩,
    ⟨[.int 1], some (sampleNote (.repeated []) "Grey fox"), false⟩]

theorem mirrors_history_sample :
    let t := (replaceAll (sampleSession, fun _ => none) sampleHistory).1
    (t.world.directory.partition ("notes", [.text "in"])).documentsOf [.int 1] = [] ∧
      ∃ d, (t.world.directory.partition ("notes", [.text "out"])).documentsOf [.int 1] = [d] ∧
        d.tokens "title" = ["blue", "fox"] := by
  obtain ⟨documents, -, -⟩ := mirrors_history sampleSession rfl sampleHistory
    (by simp [sampleHistory, sampleNote]) rfl
  have current : (replaceAll (sampleSession, fun _ => none) sampleHistory).2 [.int 1] =
      some (sampleNote (.scalar (.text "out")) "Blue fox") := rfl
  constructor
  · refine (documents [.text "in"] [.int 1]).2 fun r hr hbelongs => ?_
    obtain rfl := Option.some.inj (current.symm.trans hr)
    have hbox : [TupleValue.text "out"] = [.text "in"] := Except.ok.inj hbelongs.2
    exact absurd hbox (by decide)
  · obtain ⟨d, hd, tokens⟩ := (documents [.text "out"] [.int 1]).1 _ current ⟨rfl, rfl⟩
    refine ⟨d, hd, ?_⟩
    rw [tokens]
    decide +kernel

end Session

end ResumableQuery
