import ResumableQuery.Proofs.Cursor.Alike
import ResumableQuery.Proofs.Range
import ResumableQuery.Proofs.RecordStore.Writes

/-!
# Record stores side by side

Two record stores in one key-value store share no key if neither of their subspaces begins with the
other.  So what is saved and deleted through the one changes nothing that is loaded through the
other, and nothing that is scanned, provided that the subspace of the one does not run on from that
of the other: then its keys lie in the intervals of the other's ranges (`reads_writeAll`).
-/

namespace ResumableQuery

/-! ### Subspaces -/

namespace Tuple

variable {s t : Tuple}

theorem prefix_or_of_prefix_append {u : Tuple} (h : s <+: t ++ u) : s <+: t ∨ t <+: s :=
  List.prefix_or_prefix_of_prefix h (List.prefix_append t u)

theorem RunsOn.append (h : RunsOn s t) (u : Tuple) : RunsOn s (t ++ u) := by
  obtain ⟨front, x, y, rest, hs, rfl, hgo⟩ := h
  exact ⟨front, x, y, rest ++ u, hs, by simp, hgo⟩

theorem runsOn_of_append (h : ¬ t <+: s) {u : Tuple} (hrun : RunsOn s (t ++ u)) : RunsOn s t := by
  obtain ⟨front, x, y, rest, rfl, ht, hgo⟩ := hrun
  have hfront : front <+: t ++ u := ht ▸ List.prefix_append _ _
  rcases prefix_or_of_prefix_append hfront with ⟨more, rfl⟩ | hback
  · rw [List.append_assoc, List.append_cancel_left_eq] at ht
    cases more with
    | nil =>
      rw [List.append_nil] at h
      exact absurd (List.prefix_append _ _) h
    | cons z more =>
      obtain ⟨rfl, -⟩ := List.cons.inj ht
      exact ⟨front, x, z, more, rfl, rfl, hgo⟩
  · exact absurd (hback.trans (List.prefix_append _ _)) h

theorem leads_append_iff (hst : ¬ s <+: t) (hts : ¬ t <+: s) (u : Tuple) :
    Leads s (t ++ u) ↔ RunsOn s t := by
  constructor
  · rintro (h | h)
    · exact absurd (prefix_or_of_prefix_append h) (not_or.2 ⟨hst, hts⟩)
    · exact runsOn_of_append hts h
  · exact fun h => .inr (h.append u)

end Tuple

namespace RecordStore

/-! ### Writing -/

section Keys

variable (s : RecordStore) {p : Bytes → Bool} (hp : ∀ primaryKey, p (s.keyOf primaryKey) = false)

include hp

/-- A change leaves alone the order of the store, the budgets, and the pairs of all keys that are
not those of records. -/
theorem write_keeps (x : Write) {w : World} (hw : (w.store s.store).Sorted) :
    ((s.write w x).store s.store).Sorted ∧ (s.write w x).budgets = w.budgets ∧
      ((s.write w x).store s.store).filter (fun e => p e.1) =
        (w.store s.store).filter fun e => p e.1 := by
  obtain ⟨hbudgets, hstore | hstore⟩ := s.write_spec w x <;> rw [hstore]
  · exact ⟨hw, hbudgets, rfl⟩
  · cases x with
    | save r => exact ⟨hw.set _ _, hbudgets, Ordered.filter_insert (hp r.primaryKey) _ _⟩
    | delete primaryKey => exact ⟨hw.clear _, hbudgets, Ordered.filter_erase (hp primaryKey) _⟩

theorem writeAll_keeps (writes : List Write) {w : World} (hw : (w.store s.store).Sorted) :
    ((s.writeAll writes w).store s.store).Sorted ∧ (s.writeAll writes w).budgets = w.budgets ∧
      ((s.writeAll writes w).store s.store).filter (fun e => p e.1) =
        (w.store s.store).filter fun e => p e.1 := by
  induction writes generalizing w with
  | nil => exact ⟨hw, rfl, rfl⟩
  | cons x writes ih =>
    obtain ⟨hsorted, hbudgets, hpairs⟩ := s.write_keeps hp x hw
    obtain ⟨hsorted', hbudgets', hpairs'⟩ := ih hsorted
    exact ⟨hsorted', hbudgets'.trans hbudgets, hpairs'.trans hpairs⟩

end Keys

/-! ### Reading -/

/-- What a scan that is opened in a world comes to there. -/
def scanned (s : RecordStore) (w : World) (r : TupleRange) (c : Continuation) (p : ScanProperties)
    (budget : BudgetId) : Except CursorError (List (Record × Continuation) × Cursor.Ending) :=
  (s.scan w r c p budget).map fun records => (records.run w).2

variable (s : RecordStore) {p : Bytes → Bool} {w w' : World}

theorem load_eq_of_agreeOn (h : w.AgreeOn s.store p w') (hsorted : (w'.store s.store).Sorted)
    {primaryKey : Tuple} (hp : p (s.keyOf primaryKey) = true) :
    (s.load primaryKey w').2 = (s.load primaryKey w).2 := by
  unfold load World.get Store.get?
  rcases h.call with ⟨e, he, he'⟩ | ⟨x, x', hx, hx', -, hstore, hstore'⟩
  · rw [he, he']
  · rw [hx, hx']
    simp only [hstore, hstore', ← Ordered.find?_filter hsorted hp,
      ← Ordered.find?_filter h.sorted hp, h.pairs]

theorem scanned_eq_of_agreeOn (h : w.AgreeOn s.store p w') {r : TupleRange}
    (hp : ∀ k, (r.toKeyRange s.subspace).contains k = true → p k = true) (c : Continuation)
    (properties : ScanProperties) (budget : BudgetId) :
    s.scanned w' r c properties budget = s.scanned w r c properties budget := by
  unfold scanned scan
  rcases (s.keyScan r properties.reverse budget).alike_openAt hp h c with
    ⟨e, he, he'⟩ | ⟨rows, rows', hrows, hrows', halike⟩
  · rw [he, he']
    rfl
  · rw [hrows, hrows']
    refine congrArg Except.ok ?_
    exact ((halike.tryMap _).skipThenLimit properties c).run_eq.symm

/-- What is saved and deleted through one record store changes nothing for another one in the same
key-value store if neither subspace begins with the other: not what is loaded, and not what is
scanned unless the one subspace runs on from the other.  If it does, then its keys are among those
of the other.  (As many calls are to succeed with the changes as without them.) -/
theorem reads_writeAll {s₁ s₂ : RecordStore} {t₁ t₂ : Tuple} (hstore : s₂.store = s₁.store)
    (h₁ : s₁.subspace = t₁.pack) (h₂ : s₂.subspace = t₂.pack) (h₁₂ : ¬ t₁ <+: t₂)
    (h₂₁ : ¬ t₂ <+: t₁) (w : World) (hw : (w.store s₁.store).Sorted) (writes : List Write)
    (calls : Option Nat) :
    (∀ primaryKey, (s₁.load primaryKey { s₂.writeAll writes w with callsLeft := calls }).2 =
      (s₁.load primaryKey { w with callsLeft := calls }).2) ∧
    (¬ Tuple.RunsOn t₁ t₂ → ∀ r c p budget,
      s₁.scanned { s₂.writeAll writes w with callsLeft := calls } r c p budget =
        s₁.scanned { w with callsLeft := calls } r c p budget) ∧
    (Tuple.RunsOn t₁ t₂ → ∀ primaryKey,
      (TupleRange.all.toKeyRange s₁.subspace).contains (s₂.keyOf primaryKey) = true) := by
  have hkey (primaryKey : Tuple) : s₂.keyOf primaryKey = (t₂ ++ primaryKey).pack := by
    rw [keyOf, h₂, Tuple.pack_append]
  have hagree (p : Bytes → Bool) (hp : ∀ primaryKey, p (s₂.keyOf primaryKey) = false) :
      ({ w with callsLeft := calls } : World).AgreeOn s₁.store p
          { s₂.writeAll writes w with callsLeft := calls } ∧
        ((s₂.writeAll writes w).store s₁.store).Sorted := by
    obtain ⟨hsorted, hbudgets, hpairs⟩ := s₂.writeAll_keeps hp writes (hstore ▸ hw)
    rw [hstore] at hsorted hpairs
    exact ⟨⟨hw, hpairs, rfl, hbudgets⟩, hsorted⟩
  refine ⟨fun primaryKey => ?_, fun hno r c p budget => ?_, fun hrun primaryKey => ?_⟩
  · obtain ⟨hagree, hsorted⟩ := hagree (· == s₁.keyOf primaryKey) fun other => by
      rw [hkey, keyOf, h₁, ← Tuple.pack_append, beq_eq_false_iff_ne]
      intro heq
      have hprefix : t₁ <+: t₂ ++ other := Tuple.pack_injective heq ▸ List.prefix_append _ _
      exact (Tuple.prefix_or_of_prefix_append hprefix).elim h₁₂ h₂₁
    exact s₁.load_eq_of_agreeOn hagree hsorted (beq_self_eq_true _)
  · obtain ⟨hagree, -⟩ := hagree (t₁.pack.isPrefixOf ·) fun other => by
      rw [hkey, Bool.eq_false_iff, Ne, List.isPrefixOf_iff_prefix, ← Tuple.leads_iff,
        Tuple.leads_append_iff h₁₂ h₂₁]
      exact hno
    refine s₁.scanned_eq_of_agreeOn hagree (fun k hk => ?_) c p budget
    rw [h₁] at hk
    exact List.isPrefixOf_iff_prefix.2 (r.prefix_of_contains_toKeyRange t₁ hk)
  · rw [hkey, h₁]
    exact TupleRange.contains_all_toKeyRange ((Tuple.leads_append_iff h₁₂ h₂₁ _).2 hrun)

/-- Two record stores in one key-value store; the subspace of the second runs on from that of the
first. -/
def sampleShort : RecordStore := ⟨"main", Tuple.pack [.text "a"], .standard⟩

@[inherit_doc sampleShort]
def sampleLong : RecordStore := ⟨"main", Tuple.pack [.text "a\x00b"], .standard⟩

def sampleRecord : Record := ⟨"Doc", [.int 1], []⟩

theorem reads_writeAll_sample :
    ¬ Tuple.RunsOn [.text "a\x00b"] [.text "a"] ∧
      sampleLong.scanned { sampleShort.writeAll [.save sampleRecord, .delete [.int 2]]
        (sampleLong.save sampleRecord World.empty).1 with callsLeft := none }
        .all .start .backward 0 =
      sampleLong.scanned { (sampleLong.save sampleRecord World.empty).1 with callsLeft := none }
        .all .start .backward 0 := by
  have hno : ¬ Tuple.RunsOn [.text "a\x00b"] [.text "a"] := by
    rw [Tuple.runsOn_cons_iff, TupleValue.goesOn_text_iff]
    rintro (⟨h, -⟩ | ⟨-, rest, h⟩)
    · exact absurd h (by decide +kernel)
    · have hlen := congrArg List.length h
      rw [List.length_append, (by decide +kernel : (Text.utf8 "a").length = 1),
        (by decide +kernel : (Text.utf8 "a\x00b").length = 3)] at hlen
      omega
  obtain ⟨-, hscan, -⟩ := @reads_writeAll sampleLong sampleShort _ _ rfl rfl rfl
    (by decide +kernel) (by decide +kernel) (sampleLong.save sampleRecord World.empty).1
    (by decide +kernel) [.save sampleRecord, .delete [.int 2]] none
  exact ⟨hno, hscan hno _ _ _ _⟩

/-- A scan of everything in a subspace also finds the records of a subspace that runs on from it. -/
theorem scanned_ne_of_runsOn :
    ¬ ∀ (s₁ s₂ : RecordStore) (t₁ t₂ : Tuple), s₂.store = s₁.store → s₁.subspace = t₁.pack →
      s₂.subspace = t₂.pack → ¬ t₁ <+: t₂ → ¬ t₂ <+: t₁ → ∀ w : World,
        (w.store s₁.store).Sorted → ∀ (writes : List Write) (r : TupleRange) (c : Continuation)
          (p : ScanProperties) (budget : BudgetId),
          s₁.scanned (s₂.writeAll writes w) r c p budget = s₁.scanned w r c p budget := by
  intro h
  have hsame := h sampleShort sampleLong [.text "a"] [.text "a\x00b"] rfl rfl rfl
    (by decide +kernel) (by decide +kernel) World.empty .nil [.save sampleRecord] .all .start .forward 0
  have hbefore : sampleShort.scanned World.empty .all .start .forward 0 =
      .ok ([], .stopped .sourceExhausted .done) := by cbv
  have hafter : sampleShort.scanned (sampleLong.writeAll [.save sampleRecord] World.empty)
      .all .start .forward 0 =
        .ok ([(sampleRecord, (KeyPosition.mk (sampleLong.keyOf [.int 1])).toContinuation)],
          .stopped .sourceExhausted .done) := by cbv
  rw [hbefore, hafter] at hsame
  cases hsame

end RecordStore

end ResumableQuery
