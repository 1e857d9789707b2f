import ResumableQuery.Proofs.Search.Partition
import ResumableQuery.World.Turn

/-!
# Changes of directories

A change of one partition leaves all others as they are (`Directory.partition_write`).  What store
calls and tasks do to a world leaves all partitions as they are.
-/

namespace ResumableQuery

namespace Search

/-! ### Places -/

instance : Std.TransOrd Place :=
  inferInstanceAs (Std.TransCmp (compareLex (compareOn Prod.fst) (compareOn Prod.snd)))

instance : Std.LawfulEqOrd Place where
  eq_of_compare {a b} h := by
    obtain ⟨h₁, h₂⟩ := Ordering.then_eq_eq.1 (h : (compare a.1 b.1).then (compare a.2 b.2) = .eq)
    exact Prod.ext (Std.LawfulEqCmp.eq_of_compare h₁) (Std.LawfulEqCmp.eq_of_compare h₂)

/-! ### Partitions -/

namespace Directory

variable {d : Directory}

theorem partition_write (place : Place)
    (change : Partition → Partition × α) (other : Place) :
    (d.write place change).1.partition other =
      if other = place then (change (d.partition place)).1 else d.partition other := by
  by_cases hother : other = place
  · rw [if_pos hother, hother, write, partition, Ordered.find?_insert_self]
  · rw [if_neg hother, write, partition, Ordered.find?_insert_of_ne hother, partition]

theorem sorted_write (h : Ordered.Sorted d) (place : Place) (change : Partition → Partition × α) :
    Ordered.Sorted (d.write place change).1 :=
  h.insert _ _

theorem mem_write {place : Place} {change : Partition → Partition × α} {e : Place × Shelf}
    (h : e ∈ (d.write place change).1) : e.1 = place ∨ e ∈ d :=
  (Ordered.mem_insert h).imp_left (congrArg Prod.fst)

end Directory

end Search

/-! ### Worlds -/

namespace World

theorem directory_call {w w' : World} (h : w.call = .ok w') : w'.directory = w.directory := by
  rw [call] at h
  split at h <;> cases h <;> rfl

theorem directory_get (w : World) (name : StoreName) (key : Bytes) :
    (w.get name key).1.directory = w.directory := by
  rw [get]
  split
  · rename_i h
    exact directory_call h
  · rfl

theorem directory_set (w : World) (name : StoreName) (key value : Bytes) :
    (w.set name key value).1.directory = w.directory := by
  rw [set]
  split
  · rename_i h
    exact (directory_call h :)
  · rfl

theorem directory_clear (w : World) (name : StoreName) (key : Bytes) :
    (w.clear name key).1.directory = w.directory := by
  rw [clear]
  split
  · rename_i h
    exact (directory_call h :)
  · rfl

theorem directory_lookUp (w : World) (l : Lookup) : (w.lookUp l).1.directory = w.directory := by
  rw [lookUp]
  split
  · rfl
  · exact directory_get ..

theorem directory_remember (w : World) (t : Task) (found : Option Found) :
    (w.remember t found).directory = w.directory := by
  rw [remember]
  split <;> rfl

theorem directory_finish (w : World) (t : Task) : (w.finish t).directory = w.directory := by
  rw [finish]
  split
  · exact directory_remember ..
  · exact (directory_remember ..).trans (directory_lookUp ..)

theorem directory_serve (tasks waiting : List Task) (w : World) :
    (serve tasks waiting w).1.directory = w.directory := by
  induction tasks generalizing waiting w with
  | nil => rfl
  | cons t tasks ih =>
    rw [serve]
    split
    · exact (ih ..).trans (directory_finish w t)
    · exact ih ..

theorem directory_awaitWithin (turns : Nat) (wait : Wait) (w : World) :
    (awaitWithin turns wait w).directory = w.directory := by
  induction turns generalizing w with
  | zero => rfl
  | succ turns ih =>
    have turn : w.afterTurn.directory = w.directory := directory_serve ..
    rw [awaitWithin]
    split
    · exact turn
    · exact (ih _).trans turn

end World

end ResumableQuery
