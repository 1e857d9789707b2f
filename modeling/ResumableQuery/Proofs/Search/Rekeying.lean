import ResumableQuery.Proofs.Except
import ResumableQuery.Proofs.Search.Maintenance
import ResumableQuery.Proofs.Search.PartitionHistory

/-!
# Replacing a record under another primary key

A replacement leaves an index alone if the new version belongs to the partition of the old one and
has the same indexed values.  With one primary key the two versions have one document then.  With
two, the document of the old primary key stays and the new one gets none (`left_unindexed`), so that
the index no longer mirrors the records.  In every other case the old document goes, wherever the
new one belongs, and the new primary key has exactly its own (`repointed_iff`).
-/

namespace ResumableQuery.Search

/-! ### Directories that were written -/

/-- What a directory can come to when documents are put into its partitions and taken out. -/
inductive Directory.Written : Directory → Prop
  | empty : Written []
  | change {d : Directory} (place : Place) (c : Partition.Change) :
      Written d → Written (d.write place fun p => (p.apply c, ())).1

theorem Directory.Written.indexed {d : Directory} (h : d.Written) (place : Place) :
    (d.partition place).Indexed := by
  induction h with
  | empty => exact Partition.indexed_empty ..
  | change other c _ ih =>
    rw [partition_write]
    split
    · rename_i hplace
      exact hplace ▸ ih.apply c
    · exact ih

theorem Directory.Written.consistent {d : Directory} (h : d.Written) (place : Place) :
    (d.partition place).Consistent :=
  (h.indexed place).consistent

/-- The readers of a directory have no faults unless they are given some. -/
theorem Directory.Written.faults_eq {d : Directory} (h : d.Written) {place : Place} {shelf : Shelf}
    (hfind : Ordered.find? place d = some shelf) : shelf.faults = .clear := by
  induction h generalizing shelf with
  | empty => cases hfind
  | @change d other c _ ih =>
    by_cases hplace : place = other
    · rw [hplace, write, Ordered.find?_insert_self] at hfind
      rw [← Option.some.inj hfind, ← hplace]
      cases hd : Ordered.find? place d with
      | none => rfl
      | some before => exact (ih hd :)
    · rw [write, Ordered.find?_insert_of_ne hplace] at hfind
      exact ih hfind

/-- A partition can be read, unless it was never written. -/
theorem Directory.Written.reader_cases {d : Directory} (h : d.Written) (place : Place) :
    d.reader place = .ok ⟨place, .clear⟩ ∨
      d.reader place = .error (.indexNotFound place.1 place.2) ∧
        d.partition place = .empty place.1 place.2 := by
  unfold reader partition
  cases hfind : Ordered.find? place d with
  | none => exact .inr ⟨rfl, rfl⟩
  | some shelf =>
    dsimp only
    rw [h.faults_eq hfind]
    exact .inl rfl

namespace Index

variable {i : Index} {d d' : Directory} {g : Tuple} {old new : Option Record} {r : Record}
  {x : StoredDocument} {fields : Option (Tuple × List DocumentField)}

/-! ### What a replacement does -/

/-- A successful replacement leaves everything alone where the index sees the same before and after,
and otherwise takes out what it saw before and puts in what it sees after. -/
theorem exists_fields_of_update (h : i.update old new d = .ok d') :
    ∃ before after, i.fieldsOf old = .ok before ∧ i.fieldsOf new = .ok after ∧
      (before = after ∧ d' = d ∨
        before ≠ after ∧ d' = i.put new after (i.remove old before d)) := by
  obtain ⟨before, hold, h⟩ := Except.exists_of_bind_eq_ok h
  obtain ⟨after, hnew, h⟩ := Except.exists_of_bind_eq_ok h
  refine ⟨before, after, hold, hnew, ?_⟩
  split at h
  · rename_i heq
    exact .inl ⟨beq_iff_eq.1 heq, (Except.ok.inj h).symm⟩
  · rename_i hne
    exact .inr ⟨mt beq_iff_eq.2 hne, (Except.ok.inj h).symm⟩

theorem written_remove (h : d.Written) : (i.remove old fields d).Written := by
  unfold remove
  split
  · exact h.change _ (.delete _)
  · exact h

theorem written_put (h : d.Written) : (i.put new fields d).Written := by
  unfold put
  split
  · exact h.change _ (.add ..)
  · exact h

/-- Taking out a record takes away the document of its primary key, in its own partition. -/
theorem holds_remove (h : d.Written) {values : List DocumentField} {g' : Tuple} :
    ((i.remove (some r) (some (g, values)) d).partition (i.place g')).Holds x ↔
      (d.partition (i.place g')).Holds x ∧ (g' = g → x.primaryKey ≠ r.primaryKey) := by
  rw [remove, Directory.partition_write]
  split
  · rename_i hplace
    rw [place_injective i hplace, (h.consistent _).holds_delete, imp_iff_right rfl]
  · rename_i hplace
    refine (and_iff_left fun hg => ?_).symm
    exact absurd (congrArg i.place hg) hplace

/-- Putting in a record gives its primary key its document, in its own partition. -/
theorem holds_put (h : d.Written) {values : List DocumentField} {g' : Tuple} :
    ((i.put (some r) (some (g, values)) d).partition (i.place g')).Holds x ↔
      g' = g ∧ x = .ofTexts r.primaryKey (texts values) ∨
        (d.partition (i.place g')).Holds x ∧ (g' = g → x.primaryKey ≠ r.primaryKey) := by
  rw [put, Directory.partition_write]
  split
  · rename_i hplace
    rw [place_injective i hplace, (h.consistent _).holds_add, imp_iff_right rfl, and_iff_right rfl]
  · rename_i hplace
    have hg : g' ≠ g := fun hg => hplace (congrArg i.place hg)
    rw [and_iff_left fun hg' => absurd hg' hg]
    exact (or_iff_right fun hnew => hg hnew.1).symm

/-! ### Records of two primary keys -/

/-- The values of the declared fields of a record. -/
def values (i : Index) (r : Record) : List DocumentField :=
  i.definition.textFields.flatMap (IndexDefinition.fieldsAt r)

/-- The documents of the primary key of a record are what they are to be: its own document in the
partition to which it belongs, and none in any other. -/
def Shows (i : Index) (d : Directory) (r : Record) : Prop :=
  ∀ g x, x.primaryKey = r.primaryKey →
    ((d.partition (i.place g)).Holds x ↔ i.Has (some r) g x)

theorem fieldsOf_of_covers (hcovers : i.definition.covers r = true)
    (h : i.fieldsOf (some r) = .ok fields) :
    ∃ g, i.definition.grouping.evaluate r = .ok g ∧ fields = some (g, i.values r) := by
  rcases fieldsOf_some h with ⟨hno, -⟩ | ⟨g, belongs, hfields⟩
  · exact absurd (hcovers.symm.trans hno) (by decide)
  · exact ⟨g, belongs.2, hfields⟩

/-- The documents of the old primary key are gone, and the new one has exactly the document of its
record where that belongs. -/
structure Repointed (i : Index) (d : Directory) (old new : Record) : Prop where
  gone : ∀ g, (d.partition (i.place g)).documentsOf old.primaryKey = []
  present : ∀ g, i.Belongs g new →
    ∃ x, (d.partition (i.place g)).documentsOf new.primaryKey = [x] ∧
      ∀ name, x.tokens name =
        ((i.declaredTexts new).filter (·.1 == name)).flatMap fun t => tokenTexts t.2

/-- Where the index shows the old record, it does not point to another one. -/
theorem Shows.not_repointed {old new : Record} (h : i.Shows d old) (hd : d.Written)
    (hold : i.Belongs g old) : ¬i.Repointed d old new := by
  intro hrepointed
  have held : (d.partition (i.place g)).Holds (i.document old) :=
    (h g _ rfl).2 ⟨old, rfl, hold, rfl⟩
  have docs : (d.partition (i.place g)).documentsOf old.primaryKey = [i.document old] :=
    (hd.consistent (i.place g)).documentsOf_eq_singleton held
  rw [hrepointed.gone g] at docs
  cases docs

/-- Taking out the old record and putting in the new one points the index to the new one. -/
theorem Shows.repointed {old new : Record} (h : i.Shows d old) (hd : d.Written)
    (hkeys : old.primaryKey ≠ new.primaryKey) {gOld gNew : Tuple} (hold : i.Belongs gOld old)
    (hnew : i.Belongs gNew new) :
    i.Repointed (i.put (some new) (some (gNew, i.values new))
      (i.remove (some old) (some (gOld, i.values old)) d)) old new where
  gone g := by
    refine Partition.documentsOf_eq_nil fun x hx hholds => ?_
    rw [holds_put (written_remove hd), holds_remove hd] at hholds
    rcases hholds with ⟨-, rfl⟩ | ⟨⟨hheld, hother⟩, -⟩
    · exact hkeys hx.symm
    · obtain ⟨r, hr, hbelongs, rfl⟩ := (h g x hx).1 hheld
      obtain rfl := Option.some.inj hr
      exact hother (Except.ok.inj (hbelongs.2.symm.trans hold.2)) hx
  present g hg := by
    obtain rfl : g = gNew := Except.ok.inj (hg.2.symm.trans hnew.2)
    have written : (i.put (some new) (some (g, i.values new))
        (i.remove (some old) (some (gOld, i.values old)) d)).Written :=
      written_put (written_remove hd)
    have docs := (written.consistent (i.place g)).documentsOf_eq_singleton (d := i.document new)
      ((holds_put (written_remove hd)).2 (.inl ⟨rfl, rfl⟩))
    exact ⟨_, docs, StoredDocument.tokens_ofTexts _ _⟩

/-- A record that is put in is shown if its primary key had no document. -/
theorem shows_put (hd : d.Written) (hg : i.Belongs g r)
    (hno : ∀ g x, (d.partition (i.place g)).Holds x → x.primaryKey ≠ r.primaryKey) :
    i.Shows (i.put (some r) (some (g, i.values r)) d) r := by
  intro g' x hx
  rw [holds_put hd, or_iff_left fun h => hno g' x h.1 hx]
  constructor
  · rintro ⟨rfl, rfl⟩
    exact ⟨r, rfl, hg, rfl⟩
  · rintro ⟨r', hr, hbelongs, rfl⟩
    obtain rfl := Option.some.inj hr
    exact ⟨Except.ok.inj (hbelongs.2.symm.trans hg.2), rfl⟩

/-- Replacing a record by one of another primary key points the index to the new one, unless both
belong to one partition and have the same indexed values.  Then nothing is changed at all. -/
theorem repointed_iff {old new : Record} (hd : d.Written)
    (hold : i.definition.covers old = true) (hnew : i.definition.covers new = true)
    (hkeys : old.primaryKey ≠ new.primaryKey) (hshows : i.Shows d old)
    (hok : i.update (some old) (some new) d = .ok d') :
    ∃ gOld gNew, i.Belongs gOld old ∧ i.Belongs gNew new ∧
      (i.Repointed d' old new ↔ ¬(gOld = gNew ∧ i.values old = i.values new)) ∧
      (gOld = gNew ∧ i.values old = i.values new → d' = d) := by
  obtain ⟨before, after, hbefore, hafter, hcases⟩ := exists_fields_of_update hok
  obtain ⟨gOld, hgOld, rfl⟩ := fieldsOf_of_covers hold hbefore
  obtain ⟨gNew, hgNew, rfl⟩ := fieldsOf_of_covers hnew hafter
  rw [ne_eq, Option.some.injEq, Prod.mk.injEq] at hcases
  refine ⟨gOld, gNew, ⟨hold, hgOld⟩, ⟨hnew, hgNew⟩, ?_⟩
  rcases hcases with ⟨heq, rfl⟩ | ⟨hne, rfl⟩
  · have left : ¬i.Repointed _ old new := hshows.not_repointed hd ⟨hold, hgOld⟩
    exact ⟨iff_of_false left (not_not_intro heq), fun _ => rfl⟩
  · have repointed := hshows.repointed hd hkeys ⟨hold, hgOld⟩ ⟨hnew, hgNew⟩
    exact ⟨iff_of_true repointed hne, fun heq => absurd heq hne⟩

/-- Notes are indexed by title, with a partition for each box. -/
def boxedIndex : Index :=
  ⟨⟨"notes", "note", ["title"], .field "box", false⟩, (Session.sampleSession).records⟩

def boxedNote (number : Int64) (box title : String) : Record :=
  ⟨"note", [.int number], [("box", .scalar (.text box)), ("title", .scalar (.text title))]⟩

/-- A directory with the first note alone. -/
def boxedDirectory : Directory :=
  boxedIndex.put (some (boxedNote 1 "in" "Red fox"))
    (some ([.text "in"], boxedIndex.values (boxedNote 1 "in" "Red fox"))) []

theorem written_boxedDirectory : boxedDirectory.Written := written_put .empty

theorem shows_boxedDirectory : boxedIndex.Shows boxedDirectory (boxedNote 1 "in" "Red fox") :=
  shows_put .empty ⟨rfl, rfl⟩ fun _ _ h => absurd h Partition.not_holds_empty

/-- A note in another box takes the place of the first. -/
theorem repointed_iff_sample :
    boxedDirectory.Written ∧ boxedIndex.Shows boxedDirectory (boxedNote 1 "in" "Red fox") ∧
      ∃ d', boxedIndex.update (some (boxedNote 1 "in" "Red fox"))
          (some (boxedNote 2 "out" "Red fox")) boxedDirectory = .ok d' ∧
        boxedIndex.Repointed d' (boxedNote 1 "in" "Red fox") (boxedNote 2 "out" "Red fox") := by
  refine ⟨written_boxedDirectory, shows_boxedDirectory, _, rfl, ?_⟩
  obtain ⟨gOld, gNew, hold, hnew, hiff, -⟩ := repointed_iff written_boxedDirectory rfl rfl
    (by decide) shows_boxedDirectory
    (rfl : boxedIndex.update (some (boxedNote 1 "in" "Red fox"))
      (some (boxedNote 2 "out" "Red fox")) boxedDirectory = .ok _)
  refine hiff.2 fun h => ?_
  have hbox : Except.ok [TupleValue.text "in"] = Except.ok [TupleValue.text "out"] :=
    hold.2.trans ((congrArg Except.ok h.1).trans hnew.2.symm)
  exact absurd (Except.ok.inj hbox) (by decide)

/-- A note with another number in the same box, with the same title, is not found in the index, and
the first one still is. -/
theorem left_unindexed :
    boxedDirectory.Written ∧ boxedIndex.Shows boxedDirectory (boxedNote 1 "in" "Red fox") ∧
      boxedIndex.update (some (boxedNote 1 "in" "Red fox")) (some (boxedNote 2 "in" "Red fox"))
        boxedDirectory = .ok boxedDirectory ∧
      ((boxedDirectory.partition (boxedIndex.place [.text "in"])).documentsOf [.int 1]).length = 1 ∧
      (boxedDirectory.partition (boxedIndex.place [.text "in"])).documentsOf [.int 2] = [] ∧
      ¬boxedIndex.Repointed boxedDirectory (boxedNote 1 "in" "Red fox")
        (boxedNote 2 "in" "Red fox") := by
  exact ⟨written_boxedDirectory, shows_boxedDirectory, rfl, by decide +kernel,
    List.isEmpty_iff.1 (by decide +kernel),
    shows_boxedDirectory.not_repointed written_boxedDirectory ⟨rfl, rfl⟩⟩

end Index

end ResumableQuery.Search
