import Mathlib
import ResumableQuery.Proofs.Numeric.Binary32
import ResumableQuery.Search.Partition

/-!
# Scores

Every score comes out of a rounding step, so it is a magnitude: neither a NaN nor negative zero
(`Partition.isMagnitude_of_score`).
-/

namespace ResumableQuery.Search.Partition

open Binary32

theorem isMagnitude_of_frequencyScore {n : Nat} {x : Binary32} (h : frequencyScore n = some x) :
    x.IsMagnitude := by
  rw [frequencyScore] at h
  split at h
  · cases h
  · exact Option.some.inj h ▸ isMagnitude_sqrt _

theorem Tally.isMagnitude_of_add {t u : Tally} {occur : Occur} {s : Option Binary32}
    (ht : t.total.IsMagnitude) (h : t.add occur s = some u) : u.total.IsMagnitude := by
  cases occur <;> cases s <;> cases h
  · exact isMagnitude_add ..
  · exact ht
  · exact isMagnitude_add ..

theorem isMagnitude_of_tally {p : Partition} {d : StoredDocument} {clauses : List (Occur × Query)}
    {t u : Tally} (ht : t.total.IsMagnitude) (h : p.tally d t clauses = some u) :
    u.total.IsMagnitude := by
  induction clauses generalizing t with
  | nil =>
    rw [tally] at h
    exact Option.some.inj h ▸ ht
  | cons clause rest ih =>
    rw [tally] at h
    split at h
    · cases h
    · rename_i hadd
      exact ih (Tally.isMagnitude_of_add ht hadd) h

/-- A score is never a NaN and has no sign bit. -/
theorem isMagnitude_of_score {p : Partition} {d : StoredDocument} {query : Query} {x : Binary32}
    (h : p.score d query = some x) : x.IsMagnitude := by
  cases query with
  | term field t =>
    rw [score] at h
    obtain ⟨y, -, rfl⟩ := Option.map_eq_some_iff.1 h
    exact isMagnitude_mul ..
  | startOf field start =>
    rw [score] at h
    split at h
    · exact Option.some.inj h ▸ isMagnitude_ofNat 1
    · cases h
  | phrase field terms =>
    rw [score] at h
    split at h
    · cases h
    · obtain ⟨y, -, rfl⟩ := Option.map_eq_some_iff.1 h
      exact isMagnitude_mul ..
  | boolean clauses minimum =>
    rw [score] at h
    split at h
    · cases h
    · obtain ⟨t, htally, ht⟩ := Option.bind_eq_some_iff.1 h
      split at ht
      · exact Option.some.inj ht ▸ isMagnitude_of_tally isMagnitude_zero htally
      · cases ht
  | _ =>
    rw [score] at h
    · exact isMagnitude_of_frequencyScore h
    all_goals intros; contradiction

end ResumableQuery.Search.Partition
