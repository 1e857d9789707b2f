import ResumableQuery.Proofs.Ordered
import ResumableQuery.RecordStore

/-!
# Changes to record stores

Saving or deleting a record sets or clears the pair under its key if the call of the key-value store
succeeds, and changes nothing else (`write_spec`).  So in the subspace of a record store that only
holds what was saved through it, each pair holds a record under its own key
(`HoldsRecords.writeAll`).
-/

namespace ResumableQuery

theorem World.store_setStore (w : World) (name : StoreName) (content : Store) :
    (w.setStore name content).store name = content := by
  rw [World.store, World.setStore, Ordered.find?_insert_self]
  rfl

namespace RecordStore

/-- A change made through a record store. -/
inductive Write where
  | save (r : Record)
  | delete (primaryKey : Tuple)

/-- The world after a change. -/
def write (s : RecordStore) (w : World) : Write → World
  | .save r => (s.save r w).1
  | .delete primaryKey => (s.delete primaryKey w).1

/-- The world after several changes, one after the other. -/
def writeAll (s : RecordStore) (writes : List Write) (w : World) : World := writes.foldl s.write w

/-- What a change makes of the stored pairs. -/
def Write.apply (s : RecordStore) : Write → Store → Store
  | save r, content => content.set (s.keyOf r.primaryKey) r.toWire
  | delete primaryKey, content => content.clear (s.keyOf primaryKey)

theorem write_spec (s : RecordStore) (w : World) (x : Write) :
    (s.write w x).budgets = w.budgets ∧
      ((s.write w x).store s.store = w.store s.store ∨
        (s.write w x).store s.store = x.apply s (w.store s.store)) := by
  have hcall : (∃ e, w.call = .error e) ∨
      ∃ calls, w.call = .ok { w with callsLeft := calls } := by
    unfold World.call
    split
    · exact .inr ⟨_, rfl⟩
    · exact .inl ⟨_, rfl⟩
    · exact .inr ⟨_, rfl⟩
  rcases hcall with ⟨e, he⟩ | ⟨calls, hcalls⟩
  · cases x <;> simp only [write, save, delete, World.set, World.clear, he] <;>
      exact ⟨trivial, .inl trivial⟩
  · cases x <;>
      simp only [write, save, delete, World.set, World.clear, hcalls, World.store_setStore] <;>
      exact ⟨rfl, .inr rfl⟩

/-! ### Stores of records -/

/-- The subspace is that of a tuple, and each pair in it holds a record under its own key. -/
structure HoldsRecords (s : RecordStore) (content : Store) : Prop where
  subspace : ∃ t : Tuple, s.subspace = t.pack
  pairs : ∀ e ∈ content, s.subspace <+: e.1 →
    ∃ r, decode e.2 = .ok r ∧ e.1 = s.keyOf r.primaryKey

/-- What is saved can be read back. -/
def Write.Readable : Write → Prop
  | save r => decode r.toWire = .ok r
  | delete _ => True

variable {s : RecordStore} {content : Store}

theorem HoldsRecords.apply (h : s.HoldsRecords content) {x : Write} (hx : x.Readable) :
    s.HoldsRecords (x.apply s content) := by
  refine ⟨h.subspace, fun e he hprefix => ?_⟩
  cases x with
  | save r =>
    rcases Ordered.mem_insert he with rfl | he
    · exact ⟨r, hx, rfl⟩
    · exact h.pairs e he hprefix
  | delete primaryKey => exact h.pairs e (Ordered.mem_erase he) hprefix

theorem HoldsRecords.write {w : World} (h : s.HoldsRecords (w.store s.store)) {x : Write}
    (hx : x.Readable) : s.HoldsRecords ((s.write w x).store s.store) := by
  rcases (s.write_spec w x).2 with hstore | hstore
  · rwa [hstore]
  · rw [hstore]
    exact h.apply hx

theorem HoldsRecords.writeAll {w : World} (h : s.HoldsRecords (w.store s.store))
    {writes : List Write} (hx : ∀ x ∈ writes, x.Readable) :
    s.HoldsRecords ((s.writeAll writes w).store s.store) := by
  induction writes generalizing w with
  | nil => exact h
  | cons x writes ih =>
    obtain ⟨hx, hxs⟩ := List.forall_mem_cons.1 hx
    exact ih (h.write hx) hxs

end RecordStore

end ResumableQuery
