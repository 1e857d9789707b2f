import ResumableQuery.Proofs.Expression.Evaluation
import ResumableQuery.Proofs.Plan.Identity

/-!
# Values that are equal up to a renaming

Comparing two values under a renaming of aliases is the same as renaming the first one and comparing
what comes out, whatever the renaming: it may leave aliases out and take several to one
(`Value.semanticEq_exact`).  Renamings that take every alias to itself compare values as they are.
A hash does not see aliases, so no renaming makes values equal that hash differently.
-/

namespace ResumableQuery

/-- Every alias stays what it is. -/
def AliasMap.IsIdentity (m : AliasMap) : Prop := ∀ a, m.apply a = a

namespace Value

variable {m : AliasMap} {v w : Value}

theorem hash_rebase (v : Value) (m : AliasMap) : (v.rebase m).hash = v.hash := by
  rw [← hash_anonymous, rebase, anonymous_mapAliases, hash_anonymous]

theorem hash_eq_of_semanticEq (h : v.semanticEq m w = true) : v.hash = w.hash := by
  obtain rfl := (semanticEq_iff m v w).1 h
  exact (hash_rebase v m).symm

theorem semanticEq_iff_eq (hm : m.IsIdentity) : v.semanticEq m w = true ↔ v = w := by
  rw [semanticEq_iff, rebase, mapAliases_eq_self fun a _ => hm a]

theorem equivalence_semanticEq (hm : m.IsIdentity) :
    Equivalence fun v w : Value => v.semanticEq m w = true where
  refl _ := (semanticEq_iff_eq hm).2 rfl
  symm h := (semanticEq_iff_eq hm).2 ((semanticEq_iff_eq hm).1 h).symm
  trans h h' := (semanticEq_iff_eq hm).2
    (((semanticEq_iff_eq hm).1 h).trans ((semanticEq_iff_eq hm).1 h'))

/-- A value is equal to another one under a renaming exactly if it is that value once it is renamed,
and then both have one hash.  Where the renaming takes each alias to itself, as the empty one does
and those that are made to do so, this is equality, and so an equivalence. -/
theorem semanticEq_exact (m : AliasMap) :
    (∀ v w : Value, v.semanticEq m w = true ↔ v.rebase m = w) ∧
    (∀ v w : Value, v.semanticEq m w = true → v.hash = w.hash) ∧
    (m.IsIdentity → (∀ v w : Value, v.semanticEq m w = true ↔ v = w) ∧
      Equivalence fun v w : Value => v.semanticEq m w = true) ∧
    AliasMap.IsIdentity [] ∧ ∀ names, (AliasMap.identities names).IsIdentity := by
  refine ⟨semanticEq_iff m, fun v w => hash_eq_of_semanticEq, fun hm => ?_, fun a => rfl,
    fun names => AliasMap.apply_identities names⟩
  exact ⟨fun v w => semanticEq_iff_eq hm, equivalence_semanticEq hm⟩

/-- The ranks of two legs next to the limit of an outer record. -/
def sampleLegs : Value :=
  .columns [("left", .field (.quantified "left") "rank" .int),
    ("right", .field (.quantified "right") "rank" .int),
    ("limit", .field (.quantified "outer") "limit" .int)]

/-- Both legs are renamed to one, and the outer record stays. -/
theorem semanticEq_exact_sample :
    let m := AliasMap.ofPairs [("left", "leg"), ("right", "leg")]
    let merged : Value :=
      .columns [("left", .field (.quantified "leg") "rank" .int),
        ("right", .field (.quantified "leg") "rank" .int),
        ("limit", .field (.quantified "outer") "limit" .int)]
    sampleLegs.semanticEq m merged = true ∧ sampleLegs.hash = merged.hash ∧
      merged.semanticEq m sampleLegs = false ∧
      AliasMap.IsIdentity [("leg", "leg")] ∧
      (merged.semanticEq [("leg", "leg")] merged = true) := by
  intro m merged
  obtain ⟨exactly, hashes, -⟩ := semanticEq_exact m
  obtain ⟨-, -, identity, -, identities⟩ := semanticEq_exact [("leg", "leg")]
  have equal : sampleLegs.semanticEq m merged = true := (exactly _ _).2 rfl
  have stays : AliasMap.IsIdentity [("leg", "leg")] := identities ["leg"]
  exact ⟨equal, hashes _ _ equal, by decide +kernel, stays, ((identity stays).1 _ _).2 rfl⟩

end Value

end ResumableQuery
