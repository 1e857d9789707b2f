import Mathlib.Data.List.Induction
import ResumableQuery.Plan.Pushdown
import ResumableQuery.Proofs.Expression.Evaluation

/-!
# Legs that values can be pushed to

Values are pushed to the legs one after the other.  A leg that makes nothing of a value is out, and
if two of the legs that are left make different values of one, none is.  So what is found are the
legs that take all of the values (`Takes`), or nothing where two legs differ on a value after both
have taken every value before it (`Clash`).

The order of the legs does not matter.  That of the values does where a leg that one value puts out
differs from another leg on a second value: it may be out before the second value comes, or not
(`pushValues_reordered`).
-/

namespace ResumableQuery.Pushdown

variable {base : Alias} {v : Value} {before values values' : List Value} {t u : Pushdown}
  {ts ts' : List Pushdown} {legs legs' : List (Pushdown × Alias)} {leg : Alias}

/-- The leg makes something of each of some values. -/
def Takes (base : Alias) (values : List Value) (t : Pushdown) : Prop :=
  ∀ v ∈ values, (t v base).isSome = true

instance : DecidablePred (Takes base values) := fun t =>
  inferInstanceAs (Decidable (∀ v ∈ values, (t v base).isSome = true))

/-- Two legs make different values of one. -/
def Differ (base : Alias) (v : Value) (t u : Pushdown) : Prop :=
  ∃ made ∈ t v base, ∃ other ∈ u v base, made ≠ other

instance : Decidable (Differ base v t u) :=
  inferInstanceAs (Decidable (∃ made ∈ t v base, ∃ other ∈ u v base, made ≠ other))

/-- Two of some legs, both of which take the values before some value, differ on that one. -/
def ClashAt (base : Alias) (ts : List Pushdown) (before : List Value) (v : Value) : Prop :=
  ∃ t ∈ ts, ∃ u ∈ ts, Takes base before t ∧ Takes base before u ∧ Differ base v t u

/-- Among some values, in their order, there is one that two legs differ on although they take all
values before it. -/
def Clash (base : Alias) (ts : List Pushdown) (values : List Value) : Prop :=
  ∃ before v after, values = before ++ v :: after ∧ ClashAt base ts before v

/-- The legs that take some values, each once and in order. -/
def takers (base : Alias) (legs : List (Pushdown × Alias)) (values : List Value) : List Alias :=
  (Ordered.keysOf (legs.map (·.2))).filter fun leg => ∀ e ∈ legs, e.2 = leg → Takes base values e.1

theorem differ_symm (h : Differ base v t u) : Differ base v u t := by
  obtain ⟨made, hmade, other, hother, hne⟩ := h
  exact ⟨other, hother, made, hmade, hne.symm⟩

/-- The error for legs of which not each has a pushdown, or for no legs at all. -/
def refusal (pushdowns legs : Nat) : CursorError :=
  ((CursorError.argument "one translate function per quantifier is required").add
    "functions" (toString pushdowns)).add "quantifiers" (toString legs)

/-! ### Legs that take values -/

theorem takes_nil (base : Alias) (t : Pushdown) : Takes base [] t :=
  List.forall_mem_nil _

theorem takes_concat : Takes base (values ++ [v]) t ↔ Takes base values t ∧ (t v base).isSome := by
  rw [Takes, List.forall_mem_append, List.forall_mem_singleton, Takes]

theorem takes_perm (h : values'.Perm values) : Takes base values' t ↔ Takes base values t :=
  forall_congr' fun _ => by rw [h.mem_iff]

theorem not_clash_nil : ¬ Clash base ts [] := by
  rintro ⟨before, v, after, h, -⟩
  exact List.append_ne_nil_of_right_ne_nil before (List.cons_ne_nil v after) h.symm

theorem clash_concat :
    Clash base ts (values ++ [v]) ↔ Clash base ts values ∨ ClashAt base ts values v := by
  constructor
  · rintro ⟨before, w, after, h, hclash⟩
    rcases List.eq_nil_or_concat after with rfl | ⟨after, x, rfl⟩
    · obtain ⟨rfl, hw⟩ := List.append_inj' h rfl
      obtain rfl := List.singleton_inj.1 hw
      exact .inr hclash
    · rw [List.concat_eq_append, ← List.cons_append, ← List.append_assoc] at h
      exact .inl ⟨before, w, after, List.append_inj_left' h rfl, hclash⟩
  · rintro (⟨before, w, after, rfl, hclash⟩ | hclash)
    · exact ⟨before, w, after ++ [v], by simp, hclash⟩
    · exact ⟨values, v, [], rfl, hclash⟩

theorem clash_congr (h : ∀ t, t ∈ ts' ↔ t ∈ ts) : Clash base ts' values ↔ Clash base ts values := by
  simp only [Clash, ClashAt, h]

/-- Legs that do not clash at a value make the same of it, if anything. -/
theorem exists_agreed (h : ¬ ClashAt base ts before v) :
    ∃ agreed, ∀ t ∈ ts, Takes base before t → ∀ made ∈ t v base, made = agreed := by
  by_cases hany : ∃ u ∈ ts, Takes base before u ∧ ∃ other, other ∈ u v base
  · obtain ⟨u, hu, hutakes, other, hother⟩ := hany
    refine ⟨other, fun t ht htakes made hmade => ?_⟩
    by_contra hne
    exact h ⟨t, ht, u, hu, htakes, hutakes, made, hmade, other, hother, hne⟩
  · exact ⟨default, fun t ht htakes made hmade => absurd ⟨t, ht, htakes, made, hmade⟩ hany⟩

/-- Legs that take all values without a clash make the same of each. -/
theorem exists_made (h : ¬ Clash base ts values) (hv : v ∈ values) :
    ∃ made, ∀ t ∈ ts, Takes base values t → t v base = some made := by
  obtain ⟨before, after, rfl⟩ := List.append_of_mem hv
  obtain ⟨agreed, hagreed⟩ :=
    exists_agreed fun hclash => h ⟨before, v, after, rfl, hclash⟩
  refine ⟨agreed, fun t ht htakes => ?_⟩
  obtain ⟨made, hmade⟩ := Option.isSome_iff_exists.1 (htakes v hv)
  rw [hmade, hagreed t ht (fun w hw => htakes w (List.mem_append_left _ hw)) made hmade]

theorem mem_takers_iff : leg ∈ takers base legs values ↔
    leg ∈ legs.map (·.2) ∧ ∀ e ∈ legs, e.2 = leg → Takes base values e.1 := by
  rw [takers, List.mem_filter, Ordered.mem_keysOf, decide_eq_true_iff]

theorem increasing_takers : Ordered.Increasing (takers base legs values) :=
  (Ordered.increasing_keysOf _).filter _

/-- Under aliases of their own, the legs found are those that take the values. -/
theorem mem_takers (hlegs : (legs.map (·.2)).Nodup) (h : (t, leg) ∈ legs) :
    leg ∈ takers base legs values ↔ Takes base values t := by
  rw [mem_takers_iff, and_iff_right (List.mem_map_of_mem h)]
  refine ⟨fun hall => hall _ h rfl, fun ht e he hleg => ?_⟩
  rw [List.inj_on_of_nodup_map hlegs he h hleg]
  exact ht

theorem takers_concat : (takers base legs values).filter
    (fun leg => ∀ e ∈ legs, e.2 = leg → (e.1 v base).isSome = true) =
      takers base legs (values ++ [v]) := by
  rw [takers, takers, List.filter_filter]
  refine List.filter_congr fun leg _ => ?_
  simp only [takes_concat, imp_and, forall_and, Bool.decide_and, Bool.and_comm]

/-! ### One value -/

theorem pushValue_cons {candidates : List Alias} (hc : Ordered.Increasing candidates)
    (pushed : Option Value) :
    pushValue v base ((t, leg) :: legs) candidates pushed =
      if leg ∈ candidates then
        match t v base with
        | none => pushValue v base legs (candidates.filter (· ≠ leg)) pushed
        | some made =>
          if ∀ first ∈ pushed, first = made then pushValue v base legs candidates (some made)
          else none
      else pushValue v base legs candidates pushed := by
  by_cases hleg : leg ∈ candidates
  · have hmember : Ordered.member leg candidates = true := hc.member_iff.2 hleg
    rw [if_pos hleg]
    cases ht : t v base with
    | none => simp [pushValue, hmember, ht, hc.eraseKey_eq_filter]
    | some made =>
      cases pushed with
      | none => simp [pushValue, hmember, ht]
      | some first =>
        by_cases heq : first = made
        · simp [pushValue, hmember, ht, Value.semanticEq_identities_iff, heq]
        · simp [pushValue, hmember, ht, Value.semanticEq_identities_iff, heq]
  · simp [pushValue, hc.member_iff, hleg]

/-- As long as the legs that are left agree on a value, those stay that make something of it. -/
theorem pushValue_of_agree {candidates : List Alias} (hc : Ordered.Increasing candidates)
    {pushed : Option Value} {first : Value} (hpushed : ∀ made ∈ pushed, made = first)
    (hagree : ∀ e ∈ legs, e.2 ∈ candidates → ∀ made ∈ e.1 v base, made = first) :
    pushValue v base legs candidates pushed =
      some (candidates.filter fun leg => ∀ e ∈ legs, e.2 = leg → (e.1 v base).isSome = true) := by
  induction legs generalizing candidates pushed with
  | nil => simp [pushValue]
  | cons e legs ih =>
    obtain ⟨t, leg⟩ := e
    obtain ⟨hleg, hlegs⟩ := List.forall_mem_cons.1 hagree
    rw [pushValue_cons hc]
    split
    · rename_i hmem
      split
      · rename_i ht
        rw [ih (hc.filter _) hpushed fun e he hmem => hlegs e he (List.mem_of_mem_filter hmem),
          List.filter_filter]
        refine congrArg some (List.filter_congr fun x _ => ?_)
        have gone : (leg = x → (t v base).isSome = true) ↔ x ≠ leg := by
          rw [ht]
          exact ⟨fun h heq => absurd (h heq.symm) Bool.false_ne_true, fun h heq => absurd heq.symm h⟩
        simp only [List.forall_mem_cons, gone, Bool.decide_and, Bool.and_comm]
      · rename_i made ht
        obtain rfl := hleg hmem made ht
        rw [if_pos hpushed, ih hc (fun _ h => (Option.some.inj h).symm) hlegs]
        refine congrArg some (List.filter_congr fun x _ => ?_)
        simp only [List.forall_mem_cons, ht, Option.isSome_some, implies_true, true_and]
    · rename_i hmem
      rw [ih hc hpushed hlegs]
      refine congrArg some (List.filter_congr fun x hx => ?_)
      have other : leg ≠ x := fun heq => hmem (heq ▸ hx)
      simp only [List.forall_mem_cons, other, false_implies, true_and]

/-- The legs that are left agree on a value if there is an answer for it. -/
theorem agree_of_pushValue (hlegs : (legs.map (·.2)).Nodup) {candidates : List Alias}
    (hc : Ordered.Increasing candidates) {pushed : Option Value} {found : List Alias}
    (h : pushValue v base legs candidates pushed = some found) :
    ∃ first, (∀ made ∈ pushed, made = first) ∧
      ∀ e ∈ legs, e.2 ∈ candidates → ∀ made ∈ e.1 v base, made = first := by
  induction legs generalizing candidates pushed with
  | nil => exact ⟨pushed.getD default, fun made hmade => by rw [hmade, Option.getD_some],
      List.forall_mem_nil _⟩
  | cons e legs ih =>
    obtain ⟨t, leg⟩ := e
    obtain ⟨hleg, hlegs⟩ := List.nodup_cons.1 hlegs
    rw [pushValue_cons hc] at h
    split at h
    · split at h
      · rename_i ht
        obtain ⟨first, hpushed, hagree⟩ := ih hlegs (hc.filter _) h
        refine ⟨first, hpushed, List.forall_mem_cons.2 ⟨?_, fun e he hmem => ?_⟩⟩
        · intro _ made (hmade : made ∈ t v base)
          rw [ht] at hmade
          cases hmade
        · -- The leg that is out has an alias of its own.
          have hne : e.2 ≠ leg := fun heq => hleg (List.mem_map.2 ⟨e, he, heq⟩)
          exact hagree e he (List.mem_filter.2 ⟨hmem, decide_eq_true hne⟩)
      · rename_i made ht
        split at h
        · rename_i hpushed
          obtain ⟨first, hmade, hagree⟩ := ih hlegs hc h
          obtain rfl := hmade made rfl
          refine ⟨made, hpushed, List.forall_mem_cons.2 ⟨?_, hagree⟩⟩
          intro _ other (hother : other ∈ t v base)
          rw [ht] at hother
          exact (Option.some.inj hother).symm
        · cases h
    · rename_i hmem
      obtain ⟨first, hpushed, hagree⟩ := ih hlegs hc h
      exact ⟨first, hpushed, List.forall_mem_cons.2 ⟨fun hin => absurd hin hmem, hagree⟩⟩

/-- Where no two of the legs that take the values before differ on a value, those stay that take it,
too. -/
theorem pushValue_takers (hlegs : (legs.map (·.2)).Nodup)
    (h : ¬ ClashAt base (legs.map (·.1)) values v) :
    pushValue v base legs (takers base legs values) none =
      some (takers base legs (values ++ [v])) := by
  obtain ⟨agreed, hagreed⟩ := exists_agreed h
  have hpushed : ∀ made ∈ (none : Option Value), made = agreed := by
    intro made hmade
    cases hmade
  rw [pushValue_of_agree increasing_takers hpushed fun e he htakes =>
    hagreed e.1 (List.mem_map_of_mem he) ((mem_takers hlegs he).1 htakes), takers_concat]

/-- Where two of the legs that take the values before differ on a value, there is no answer. -/
theorem pushValue_of_clash (hlegs : (legs.map (·.2)).Nodup)
    (h : ClashAt base (legs.map (·.1)) values v) :
    pushValue v base legs (takers base legs values) none = none := by
  obtain ⟨t, ht, u, hu, htakes, hutakes, made, hmade, other, hother, hne⟩ := h
  obtain ⟨e, he, rfl⟩ := List.mem_map.1 ht
  obtain ⟨o, ho, rfl⟩ := List.mem_map.1 hu
  refine Option.eq_none_iff_forall_ne_some.2 fun found hfound => hne ?_
  obtain ⟨first, -, hagree⟩ := agree_of_pushValue hlegs increasing_takers hfound
  rw [hagree e he ((mem_takers hlegs he).2 htakes) made hmade,
    hagree o ho ((mem_takers hlegs ho).2 hutakes) other hother]

/-! ### All values -/

/-- Pushing values one after the other leaves the legs that take all of them, unless the legs clash
on the way. -/
theorem foldlM_pushValue (hlegs : (legs.map (·.2)).Nodup) (values : List Value) :
    (Clash base (legs.map (·.1)) values →
      values.foldlM (fun candidates v => pushValue v base legs candidates none)
        (takers base legs []) = none) ∧
    (¬ Clash base (legs.map (·.1)) values →
      values.foldlM (fun candidates v => pushValue v base legs candidates none)
        (takers base legs []) = some (takers base legs values)) := by
  induction values using List.reverseRecOn with
  | nil => exact ⟨fun h => absurd h not_clash_nil, fun _ => rfl⟩
  | append_singleton values v ih =>
    rw [clash_concat, List.foldlM_append]
    by_cases hclash : Clash base (legs.map (·.1)) values
    · rw [ih.1 hclash]
      exact ⟨fun _ => rfl, fun h => absurd (.inl hclash) h⟩
    · rw [ih.2 hclash, or_iff_right hclash]
      simp only [Option.bind_eq_bind, Option.bind_some, List.foldlM_cons, List.foldlM_nil,
        Option.pure_def, Option.bind_fun_some]
      exact ⟨pushValue_of_clash hlegs, pushValue_takers hlegs⟩

section Pushed

variable {names : List Alias} (hlength : ts.length = names.length)

theorem pushValues_of_refused (h : ts = [] ∨ ts.length ≠ names.length) (values : List Value)
    (base : Alias) : pushValues ts names values base = .error (refusal ts.length names.length) := by
  have refused : (ts.isEmpty || ts.length != names.length) = true := by simpa using h
  rw [pushValues, if_pos refused, refusal]

include hlength

theorem map_fst_zip : (ts.zip names).map (·.1) = ts := List.map_fst_zip hlength.le

theorem map_snd_zip : (ts.zip names).map (·.2) = names := List.map_snd_zip hlength.ge

theorem exists_leg_of_mem (h : t ∈ ts) : ∃ leg, (t, leg) ∈ ts.zip names := by
  rw [← map_fst_zip hlength] at h
  obtain ⟨e, he, rfl⟩ := List.mem_map.1 h
  exact ⟨e.2, he⟩

theorem exists_pushdown_of_mem (h : leg ∈ names) : ∃ t, (t, leg) ∈ ts.zip names := by
  rw [← map_snd_zip hlength] at h
  obtain ⟨e, he, rfl⟩ := List.mem_map.1 h
  exact ⟨e.1, he⟩

theorem pushValues_of_ne_nil (hts : ts ≠ []) (values : List Value) (base : Alias) :
    pushValues ts names values base =
      .ok ((values.foldlM (fun candidates v => pushValue v base (ts.zip names) candidates none)
        (takers base (ts.zip names) [])).getD []) := by
  have all : takers base (ts.zip names) [] = Ordered.keysOf names := by
    rw [takers, map_snd_zip hlength]
    exact List.filter_eq_self.2 fun leg _ => decide_eq_true fun e _ _ => takes_nil base e.1
  rw [pushValues, if_neg (by simp [hts, hlength]), all]
  rfl

variable (hnames : names.Nodup)

include hnames

theorem pushValues_of_clash (h : Clash base ts values) : pushValues ts names values base = .ok [] := by
  have hts : ts ≠ [] := by
    rintro rfl
    obtain ⟨-, -, -, -, t, ht, -⟩ := h
    exact List.not_mem_nil ht
  rw [pushValues_of_ne_nil hlength hts,
    (foldlM_pushValue (by rwa [map_snd_zip hlength]) values).1 (by rwa [map_fst_zip hlength])]
  rfl

theorem pushValues_of_not_clash (hts : ts ≠ []) (h : ¬ Clash base ts values) :
    pushValues ts names values base = .ok (takers base (ts.zip names) values) := by
  rw [pushValues_of_ne_nil hlength hts,
    (foldlM_pushValue (by rwa [map_snd_zip hlength]) values).2 (by rwa [map_fst_zip hlength])]
  rfl

theorem mem_takers_zip_iff : leg ∈ takers base (ts.zip names) values ↔
    ∃ t, (t, leg) ∈ ts.zip names ∧ Takes base values t := by
  have hzip : ((ts.zip names).map (·.2)).Nodup := by rwa [map_snd_zip hlength]
  constructor
  · intro h
    obtain ⟨e, he, rfl⟩ := List.mem_map.1 (mem_takers_iff.1 h).1
    exact ⟨e.1, he, (mem_takers hzip he).1 h⟩
  · rintro ⟨t, ht, htakes⟩
    exact (mem_takers hzip ht).2 htakes

theorem takers_ne_nil_iff :
    takers base (ts.zip names) values ≠ [] ↔ ∃ t ∈ ts, Takes base values t := by
  constructor
  · intro h
    obtain ⟨leg, hleg⟩ := List.exists_mem_of_ne_nil _ h
    obtain ⟨t, ht, htakes⟩ := (mem_takers_zip_iff hlength hnames).1 hleg
    exact ⟨t, (List.of_mem_zip ht).1, htakes⟩
  · rintro ⟨t, ht, htakes⟩
    obtain ⟨leg, hleg⟩ := exists_leg_of_mem hlength ht
    exact List.ne_nil_of_mem ((mem_takers_zip_iff hlength hnames).2 ⟨t, hleg, htakes⟩)

/-- All legs are found for one value exactly if all of them make the same of it. -/
theorem found_all_iff (h : ¬ Clash base ts [v]) :
    (∀ leg, leg ∈ takers base (ts.zip names) [v] ↔ leg ∈ names) ↔
      ∃ made, ∀ t ∈ ts, t v base = some made := by
  have hzip : ((ts.zip names).map (·.2)).Nodup := by rwa [map_snd_zip hlength]
  constructor
  · intro hall
    obtain ⟨made, hmade⟩ := exists_made h List.mem_cons_self
    refine ⟨made, fun t ht => hmade t ht ?_⟩
    obtain ⟨leg, hleg⟩ := exists_leg_of_mem hlength ht
    exact (mem_takers hzip hleg).1 ((hall leg).2 (List.of_mem_zip hleg).2)
  · rintro ⟨made, hmade⟩ leg
    rw [mem_takers_zip_iff hlength hnames]
    constructor
    · rintro ⟨t, ht, -⟩
      exact (List.of_mem_zip ht).2
    · intro hleg
      obtain ⟨t, ht⟩ := exists_pushdown_of_mem hlength hleg
      refine ⟨t, ht, List.forall_mem_singleton.2 ?_⟩
      rw [hmade t (List.of_mem_zip ht).1]
      rfl

end Pushed

/-! ### Legs that make the same -/

theorem not_clash_of_same {made : Value} (h : ∀ t ∈ ts, t v base = some made) :
    ¬ Clash base ts [v] := by
  intro hclash
  obtain ⟨t, ht, u, hu, -, -, made', hmade, other, hother, hne⟩ :=
    (clash_concat.1 (hclash : Clash base ts ([] ++ [v]))).resolve_left not_clash_nil
  rw [h t ht] at hmade
  rw [h u hu] at hother
  exact hne ((Option.some.inj hmade).symm.trans (Option.some.inj hother))

theorem common_eq_some_iff {first : Pushdown} {others : List Pushdown} {made : Value} :
    common first others v base = some made ↔ ∀ t ∈ first :: others, t v base = some made := by
  rw [List.forall_mem_cons, common]
  cases hfirst : first v base with
  | none => simp
  | some pushed =>
    have same (t : Pushdown) :
        (t v base).any (pushed.semanticEq (AliasMap.identities pushed.aliases)) = true ↔
          t v base = some pushed := by
      cases t v base with
      | none => simp
      | some made =>
        rw [Option.any_some, Value.semanticEq_identities_iff, Option.some.injEq]
        exact eq_comm
    simp only [Option.bind_eq_bind, Option.bind_some, List.all_eq_true, same, Option.some.injEq]
    constructor
    · intro h
      split at h
      · rename_i hothers
        obtain rfl := Option.some.inj h
        exact ⟨rfl, hothers⟩
      · cases h
    · rintro ⟨rfl, hothers⟩
      rw [if_pos hothers]
      rfl

/-- Some legs combine to a pushdown that takes a value exactly if all of them make the same of
it. -/
theorem exists_combine_iff :
    (∃ t, combine ts = .ok t ∧ (t v base).isSome) ↔
      ts ≠ [] ∧ ∃ made, ∀ t ∈ ts, t v base = some made := by
  cases ts with
  | nil => simp [combine]
  | cons first others =>
    simp only [combine, Except.ok.injEq, exists_eq_left', Option.isSome_iff_exists,
      common_eq_some_iff, ne_eq, reduceCtorEq, not_false_eq_true, true_and]

/-! ### What is found -/

/-- A leg is one of those found exactly if it takes all values, or there is none if legs clash on the
way.  What the legs found make of a value is the same for all of them.  A single value is taken by
all legs exactly if they combine to a pushdown that takes it.  No legs at all are refused. -/
theorem pushValues_returns {names : List Alias} (hlength : ts.length = names.length)
    (hnames : names.Nodup) (values : List Value) (base : Alias) :
    (ts = [] → pushValues ts names values base = .error (refusal 0 0)) ∧
    (ts ≠ [] → ∃ found, pushValues ts names values base = .ok found ∧ Ordered.Increasing found ∧
      (Clash base ts values → found = []) ∧
      (¬ Clash base ts values →
        ∀ leg, leg ∈ found ↔ ∃ t, (t, leg) ∈ ts.zip names ∧ Takes base values t) ∧
      (∀ v ∈ values, ∃ made, ∀ t leg, (t, leg) ∈ ts.zip names → leg ∈ found →
        t v base = some made) ∧
      ∀ v, values = [v] →
        ((∀ leg, leg ∈ found ↔ leg ∈ names) ↔
          ∃ t, combine ts = .ok t ∧ (t v base).isSome)) := by
  refine ⟨fun hts => ?_, fun hts => ?_⟩
  · rw [pushValues_of_refused (.inl hts), ← hlength, hts, List.length_nil]
  by_cases hclash : Clash base ts values
  · refine ⟨[], pushValues_of_clash hlength hnames hclash, .nil, fun _ => rfl,
      fun h => absurd hclash h, fun v _ => ⟨default, fun t leg _ h => absurd h List.not_mem_nil⟩, ?_⟩
    rintro v rfl
    rw [exists_combine_iff]
    constructor
    · intro hall
      obtain ⟨leg, hleg⟩ := List.exists_mem_of_ne_nil names fun h =>
        hts (List.eq_nil_of_length_eq_zero (hlength.trans (congrArg List.length h)))
      exact absurd ((hall leg).2 hleg) List.not_mem_nil
    · rintro ⟨-, made, hmade⟩
      exact absurd hclash (not_clash_of_same hmade)
  · refine ⟨_, pushValues_of_not_clash hlength hnames hts hclash, increasing_takers,
      fun h => absurd h hclash, fun _ leg => mem_takers_zip_iff hlength hnames, fun v hv => ?_, ?_⟩
    · obtain ⟨made, hmade⟩ := exists_made hclash hv
      refine ⟨made, fun t leg hleg hfound => hmade t (List.of_mem_zip hleg).1 ?_⟩
      exact (mem_takers (by rwa [map_snd_zip hlength]) hleg).1 hfound
    · rintro v rfl
      rw [exists_combine_iff, and_iff_right hts, found_all_iff hlength hnames hclash]

/-- A field of the stream. -/
def sampleField (name : String) : Value := .field (.quantified "stream") name .any

/-- A leg that has the fields `a` and `b`. -/
def sampleWide : Pushdown := (((FieldPushdown.new "stream").withField ["a"]).withField ["b"]).push

/-- A leg that has the field `a` alone. -/
def sampleNarrow : Pushdown := ((FieldPushdown.new "stream").withField ["a"]).push

/-- A leg that has the field `b` alone, under another name. -/
def sampleRenamed : Pushdown := ((FieldPushdown.new "stream").withRenamed ["b"] ["c"]).push

theorem pushValues_returns_sample :
    let ts := [sampleWide, sampleNarrow, sampleWide]
    let names := ["x", "y", "z"]
    let values := [sampleField "a", sampleField "b"]
    ts.length = names.length ∧ names.Nodup ∧ pushValues ts names values "row" = .ok ["x", "z"] ∧
      ¬ Clash "row" ts values ∧
      ∃ made, ∀ t leg, (t, leg) ∈ ts.zip names → leg ∈ ["x", "z"] →
        t (sampleField "b") "row" = some made := by
  intro ts names values
  have hnames : names.Nodup := by decide
  have hfound : pushValues ts names values "row" = .ok ["x", "z"] := rfl
  have hlength : ts.length = names.length := rfl
  obtain ⟨-, h⟩ := pushValues_returns hlength hnames values "row"
  obtain ⟨found, heq, -, hclash, -, hmade, -⟩ := h (List.cons_ne_nil _ _)
  obtain rfl : found = ["x", "z"] := Except.ok.inj (heq.symm.trans hfound)
  refine ⟨hlength, hnames, hfound, fun h => List.cons_ne_nil _ _ (hclash h), hmade _ ?_⟩
  exact List.mem_cons_of_mem _ List.mem_cons_self

/-- No legs have pushdowns of their own, and still there is no answer. -/
theorem pushValues_without_legs :
    let ts : List Pushdown := []
    let names : List Alias := []
    ts.length = names.length ∧ names.Nodup ∧
      ¬ ∃ found, pushValues ts names [sampleField "a"] "row" = .ok found := by
  intro ts names
  refine ⟨rfl, .nil, ?_⟩
  rintro ⟨found, h⟩
  cases h

/-! ### Other orders -/

theorem takers_perm_legs (h : legs'.Perm legs) :
    takers base legs' values = takers base legs values :=
  increasing_takers.eq_of_mem_iff increasing_takers fun leg => by
    simp only [mem_takers_iff, (h.map _).mem_iff, h.mem_iff]

theorem takers_perm_values (h : values'.Perm values) :
    takers base legs values' = takers base legs values := by
  simp only [takers, takes_perm h]

/-- Where legs that differ on some value take all of them, it does not matter when that value
comes. -/
theorem clash_iff_differ
    (h : ∀ v ∈ values, ∀ t ∈ ts, ∀ u ∈ ts, Differ base v t u → Takes base values t) :
    Clash base ts values ↔ ∃ v ∈ values, ∃ t ∈ ts, ∃ u ∈ ts, Differ base v t u := by
  constructor
  · rintro ⟨before, v, after, rfl, t, ht, u, hu, -, -, hdiffer⟩
    exact ⟨v, List.mem_append_right _ List.mem_cons_self, t, ht, u, hu, hdiffer⟩
  · rintro ⟨v, hv, t, ht, u, hu, hdiffer⟩
    obtain ⟨before, after, rfl⟩ := List.append_of_mem hv
    have htakes := h v hv t ht u hu hdiffer
    have hutakes := h v hv u hu t ht (differ_symm hdiffer)
    exact ⟨before, v, after, rfl, t, ht, u, hu, fun w hw => htakes w (List.mem_append_left _ hw),
      fun w hw => hutakes w (List.mem_append_left _ hw), hdiffer⟩

theorem clash_perm (hvalues : values'.Perm values)
    (h : ∀ v ∈ values, ∀ t ∈ ts, ∀ u ∈ ts, Differ base v t u → Takes base values t) :
    Clash base ts values' ↔ Clash base ts values := by
  have h' : ∀ v ∈ values', ∀ t ∈ ts, ∀ u ∈ ts, Differ base v t u → Takes base values' t :=
    fun v hv t ht u hu hdiffer =>
      (takes_perm hvalues).2 (h v (hvalues.mem_iff.1 hv) t ht u hu hdiffer)
  rw [clash_iff_differ h, clash_iff_differ h']
  simp only [hvalues.mem_iff]

theorem pushValues_perm_legs {names names' : List Alias} (hlength : ts.length = names.length)
    (hlength' : ts'.length = names'.length) (h : (ts'.zip names').Perm (ts.zip names))
    (hnames : names.Nodup) (hts : ts ≠ []) :
    pushValues ts' names' values base = pushValues ts names values base := by
  have pushdowns : ts'.Perm ts := by
    simpa only [map_fst_zip hlength, map_fst_zip hlength'] using h.map (·.1)
  have aliases : names'.Perm names := by
    simpa only [map_snd_zip hlength, map_snd_zip hlength'] using h.map (·.2)
  have hnames' : names'.Nodup := aliases.nodup_iff.2 hnames
  have hclash : Clash base ts' values ↔ Clash base ts values :=
    clash_congr fun _ => pushdowns.mem_iff
  by_cases hc : Clash base ts values
  · rw [pushValues_of_clash hlength hnames hc, pushValues_of_clash hlength' hnames' (hclash.2 hc)]
  · have hts' : ts' ≠ [] := fun heq => hts (heq ▸ pushdowns).symm.eq_nil
    rw [pushValues_of_not_clash hlength hnames hts hc,
      pushValues_of_not_clash hlength' hnames' hts' (mt hclash.1 hc), takers_perm_legs h]

/-- What is found for two orders of the values differs exactly if some leg takes all of them and legs
clash in one of the orders alone. -/
theorem pushValues_ne_iff (base : Alias) {names : List Alias} (hlength : ts.length = names.length)
    (hnames : names.Nodup) (hts : ts ≠ []) (hvalues : values'.Perm values) :
    pushValues ts names values' base ≠ pushValues ts names values base ↔
      (∃ t ∈ ts, Takes base values t) ∧ ¬ (Clash base ts values' ↔ Clash base ts values) := by
  rw [← takers_ne_nil_iff hlength hnames]
  have clashed {values : List Value} (h : Clash base ts values) :
      pushValues ts names values base = .ok [] := pushValues_of_clash hlength hnames h
  have taken {values : List Value} (h : ¬ Clash base ts values) :
      pushValues ts names values base = .ok (takers base (ts.zip names) values) :=
    pushValues_of_not_clash hlength hnames hts h
  by_cases h : Clash base ts values <;> by_cases h' : Clash base ts values'
  · simp [clashed h, clashed h', h, h']
  · simp [clashed h, taken h', h, h', takers_perm_values hvalues]
  · rw [taken h, clashed h', ne_eq, Except.ok.injEq, ← ne_eq, ne_comm]
    simp [h, h']
  · simp [taken h, taken h', h, h', takers_perm_values hvalues]

/-- The order of the legs does not matter.  With the values in another order, the same legs are found
as long as legs that differ on a value take all values; in any case, if legs are found in both
orders they are the same, and what is found changes exactly if some leg takes all values and legs
clash in one of the two orders but not in the other. -/
theorem pushValues_reordered {names names' : List Alias} (hts : ts'.length = ts.length)
    (hnames : names'.length = names.length) (hlegs : (ts'.zip names').Perm (ts.zip names))
    (hnodup : names.Nodup) (hvalues : values'.Perm values) (base : Alias) :
    pushValues ts' names' values base = pushValues ts names values base ∧
    ((∀ v ∈ values, ∀ t ∈ ts, ∀ u ∈ ts, Differ base v t u → Takes base values t) →
      pushValues ts names values' base = pushValues ts names values base) ∧
    (∀ found found', pushValues ts names values base = .ok found →
      pushValues ts names values' base = .ok found' → found ≠ [] → found' ≠ [] → found' = found) ∧
    (pushValues ts names values' base ≠ pushValues ts names values base ↔
      (∃ found, pushValues ts names values base = .ok found) ∧ (∃ t ∈ ts, Takes base values t) ∧
        ¬ (Clash base ts values' ↔ Clash base ts values)) := by
  by_cases hrefused : ts = [] ∨ ts.length ≠ names.length
  · -- Refused legs are refused for all values, and their number is that of the others.
    have hrefused' : ts' = [] ∨ ts'.length ≠ names'.length := by
      rwa [hnames, ← List.length_eq_zero_iff, hts, List.length_eq_zero_iff]
    have error := pushValues_of_refused hrefused
    refine ⟨?_, fun _ => (error ..).trans (error ..).symm, ?_, ?_⟩
    · rw [pushValues_of_refused hrefused', hts, hnames, error]
    · intro found found' hfound
      rw [error] at hfound
      cases hfound
    · rw [error, error]
      refine ⟨fun h => absurd rfl h, ?_⟩
      rintro ⟨⟨found, hfound⟩, -⟩
      cases hfound
  · obtain ⟨hne, hlength⟩ := not_or.1 hrefused
    rw [not_not] at hlength
    have hlength' : ts'.length = names'.length := by rw [hts, hnames, hlength]
    have hdiffer := pushValues_ne_iff base hlength hnodup hne hvalues
    have hok : ∃ found, pushValues ts names values base = .ok found :=
      ⟨_, pushValues_of_ne_nil hlength hne values base⟩
    refine ⟨pushValues_perm_legs hlength hlength' hlegs hnodup hne, fun h => ?_, ?_, ?_⟩
    · by_contra hchanged
      exact (hdiffer.1 hchanged).2 (clash_perm hvalues h)
    · intro found found' hfound hfound' hsome hsome'
      have not_clash : ¬ Clash base ts values := fun h =>
        hsome (Except.ok.inj (hfound.symm.trans (pushValues_of_clash hlength hnodup h)))
      have not_clash' : ¬ Clash base ts values' := fun h =>
        hsome' (Except.ok.inj (hfound'.symm.trans (pushValues_of_clash hlength hnodup h)))
      by_contra hchanged
      rw [hfound, hfound', ne_eq, Except.ok.injEq] at hdiffer
      exact (hdiffer.1 hchanged).2 (iff_of_false not_clash' not_clash)
    · rw [hdiffer, and_iff_right hok]

theorem pushValues_reordered_sample :
    let ts := [sampleWide, sampleNarrow]
    let names := ["x", "y"]
    let values := [sampleField "a", sampleField "b"]
    (([sampleNarrow, sampleWide].zip ["y", "x"]).Perm (ts.zip names) ∧ names.Nodup ∧
      [sampleField "b", sampleField "a"].Perm values) ∧
    (∀ v ∈ values, ∀ t ∈ ts, ∀ u ∈ ts, Differ "row" v t u → Takes "row" values t) ∧
    pushValues ts names values "row" = .ok ["x"] ∧
    pushValues [sampleNarrow, sampleWide] ["y", "x"] values "row" = .ok ["x"] ∧
    pushValues ts names [sampleField "b", sampleField "a"] "row" = .ok ["x"] := by
  intro ts names values
  have hlegs : ([sampleNarrow, sampleWide].zip ["y", "x"]).Perm (ts.zip names) := .swap ..
  have hvalues : [sampleField "b", sampleField "a"].Perm values := .swap ..
  have hnames : names.Nodup := by decide
  have agree : ∀ v ∈ values, ∀ t ∈ ts, ∀ u ∈ ts, Differ "row" v t u → Takes "row" values t := by
    decide +kernel
  have hfound : pushValues ts names values "row" = .ok ["x"] := rfl
  have hts : [sampleNarrow, sampleWide].length = ts.length := rfl
  have hlength : ["y", "x"].length = names.length := rfl
  obtain ⟨same, same', -⟩ := pushValues_reordered hts hlength hlegs hnames hvalues "row"
  exact ⟨⟨hlegs, hnames, hvalues⟩, agree, hfound, same.trans hfound, (same' agree).trans hfound⟩

/-- The second leg takes one of two values, and makes another thing of it than the first leg.  If the
other value comes first it is out by then. -/
theorem pushValues_values_swapped :
    let ts := [sampleWide, sampleRenamed]
    let names := ["x", "y"]
    names.Nodup ∧ [sampleField "b", sampleField "a"].Perm [sampleField "a", sampleField "b"] ∧
      pushValues ts names [sampleField "a", sampleField "b"] "row" = .ok ["x"] ∧
      pushValues ts names [sampleField "b", sampleField "a"] "row" = .ok [] :=
  ⟨by decide, .swap .., rfl, rfl⟩

end ResumableQuery.Pushdown
