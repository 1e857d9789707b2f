import ResumableQuery.Plan.Basic
import ResumableQuery.Proofs.Expression.Evaluation

/-!
# Values that legs must produce

The legs of a set operator must be able to produce the values that its comparison key is made of,
with an alias of the caller's choice for the row.  For a key that is a value, that is the value
rebased onto this alias, and it evaluates to the key of the row (`Value.eval_rebase`).
-/

namespace ResumableQuery

theorem AliasMap.apply_ofPairs_singleton (source target a : Alias) :
    (ofPairs [(source, target)]).apply a = if a = source then target else a := by
  have find : Ordered.find? a [(source, target)] = if a = source then some target else none := by
    rw [Ordered.find?]
    cases hcmp : compare a source with
    | lt => rw [if_neg (Ordered.ne_of_compare hcmp (by decide))]
    | eq => rw [if_pos (Std.LawfulEqCmp.eq_of_compare hcmp)]
    | gt => rw [if_neg (Ordered.ne_of_compare hcmp (by decide))]; rfl
  rw [apply, target?]
  change (Ordered.find? a [(source, target)]).getD a = _
  rw [find]
  split <;> rfl

namespace ComparisonKey

theorem ofRow_eq_ok_iff {k : ComparisonKey} {b : Bindings} {row : Record} {t : Tuple} :
    k.ofRow b row = .ok t ↔ k.evaluate b row = .ok t := by
  rw [ofRow]
  cases k.evaluate b row <;> simp [Except.mapError]

end ComparisonKey

namespace Value

/-- Taking the row under another alias that the value does not use yields what it yields under its
own. -/
theorem toOption_eval_rebase_bind {v : Value} {own base : Alias}
    (h : base ∈ v.aliases → base = own) (b : Bindings) (row : Record) :
    ((v.rebase (AliasMap.ofPairs [(own, base)])).eval (b.bind base row)).toOption =
      (v.eval (b.bind own row)).toOption := by
  refine toOption_eval_mapAliases fun a ha => ?_
  rw [AliasMap.apply_ofPairs_singleton]
  split
  · rename_i hown
    rw [hown, Bindings.record?_bind_self, Bindings.record?_bind_self]
  · rename_i hown
    have hbase : a ≠ base := fun heq => hown (heq.trans (h (heq ▸ ha)))
    rw [Bindings.record?_bind_of_ne hown, Bindings.record?_bind_of_ne hbase]

/-- A rebased value evaluates to what the value evaluates to where each alias stands for what it is
renamed to, and evaluation depends on the aliases of the value alone.  So where a set operator
compares its legs by a value, what each leg must produce under another alias for its row is the key
of that row, as long as the value does not use that alias for something else. -/
theorem eval_rebase (v : Value) (m : AliasMap) (b : Bindings) :
    ((∀ a, (b.along m).record? a = b.record? (m.apply a)) ∧
      ∀ t, (v.rebase m).eval b = .ok t ↔ v.eval (b.along m) = .ok t) ∧
    (∀ c : Bindings, (∀ a ∈ v.aliases, c.record? a = b.record? a) → v.eval c = v.eval b) ∧
    ∀ (s : SetPlan) (own base : Alias) (type : FieldType), s.key = .onValue own v →
      (base ∈ v.aliases → base = own) →
        ∃ required, s.requiredValues base type = [required] ∧
          ∀ row t, required.eval (b.bind base row) = .ok t ↔ s.key.ofRow b row = .ok t := by
  have renamed := toOption_eval_mapAliases (v := v) fun a _ => Bindings.record?_along m b a
  refine ⟨⟨Bindings.record?_along m b, fun t => ?_⟩, fun c h => eval_congr h, ?_⟩
  · rw [← Except.toOption_eq_some_iff, ← Except.toOption_eq_some_iff, rebase, renamed]
  · intro s own base type hkey hbase
    refine ⟨v.rebase (AliasMap.ofPairs [(own, base)]), ?_, fun row t => ?_⟩
    · rw [SetPlan.requiredValues, hkey]
    · rw [hkey, ComparisonKey.ofRow_eq_ok_iff, ComparisonKey.evaluate,
        ← Except.toOption_eq_some_iff, ← Except.toOption_eq_some_iff,
        toOption_eval_rebase_bind hbase]

/-- The rank of a row next to the limit of an outer record, and a row and an outer record. -/
def sampleBounded : Value :=
  .columns [("rank", .field (.quantified "row") "rank" .int),
    ("limit", .field (.quantified "outer") "limit" .int)]

def sampleRow : Record := ⟨"shape", [.int 1], [("rank", .scalar (.int 3))]⟩

def sampleOuter : Record := ⟨"query", [.int 2], [("limit", .scalar (.int 7))]⟩

/-- The outer record is bound to the alias that the key has for its own row, and the alias that the
caller chose is bound already, too. -/
theorem eval_rebase_sample :
    let s : SetPlan :=
      ⟨.union, false, [("a", .scan .all false)], .onValue "row" sampleBounded, false⟩
    let b := Bindings.ofPairs [("base", sampleOuter), ("outer", sampleOuter), ("row", sampleOuter)]
    let c := Bindings.ofPairs [("outer", sampleOuter), ("row", sampleOuter)]
    ((∀ a ∈ sampleBounded.aliases, c.record? a = b.record? a) ∧
      sampleBounded.eval c = sampleBounded.eval b) ∧
    ("base" ∈ sampleBounded.aliases → "base" = "row") ∧
    ∃ required, s.requiredValues "base" .any = [required] ∧
      required.eval (b.bind "base" sampleRow) = .ok [.int 3, .int 7] := by
  intro s b c
  have used : sampleBounded.aliases = ["outer", "row"] := by decide +kernel
  have same : ∀ a ∈ sampleBounded.aliases, c.record? a = b.record? a := by
    rw [used]
    exact List.forall_mem_cons.2 ⟨rfl, List.forall_mem_singleton.2 rfl⟩
  have unused : "base" ∈ sampleBounded.aliases → "base" = "row" := by
    rw [used]
    decide
  obtain ⟨-, hsame, hrequired⟩ := eval_rebase sampleBounded [("row", "outer")] b
  obtain ⟨required, hs, heval⟩ := hrequired s "row" "base" .any rfl unused
  refine ⟨⟨same, hsame c same⟩, unused, required, hs, (heval sampleRow _).2 ?_⟩
  rfl

end Value

end ResumableQuery
