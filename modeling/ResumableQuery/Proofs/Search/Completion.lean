import ResumableQuery.Proofs.Cursor.Pipelining
import ResumableQuery.Proofs.Search.Hits
import ResumableQuery.Proofs.World.Tasks
import ResumableQuery.Search.Completion

/-!
# What a completion returns

Where stores and indexes stay as they are and no call fails, a completion returns a list that can be
said in advance (`Completion.entries`): the entries of the hits that were looked up, in the order of
the hits up to the first that fails, of which as many are left out and as many returned as was asked
for.  The pipelines do not show, and neither do the tasks that load the records beside the cursor.
-/

namespace ResumableQuery

/-! ### Adapters -/

/-- Of rows that follow those that were returned already, as many as the request leaves. -/
def ScanProperties.window (p : ScanProperties) (returned : Nat) (l : List α) : List α :=
  match p.limit with
  | none => l
  | some n => l.take (n - returned)

namespace ScanProperties

variable (p : ScanProperties) {returned : Nat}

theorem window_nil (returned : Nat) : p.window returned ([] : List α) = [] := by
  rw [window]
  split
  · rfl
  · exact List.take_nil

theorem window_cons (below : ∀ n ∈ p.limit, returned < n) (a : α) (l : List α) :
    p.window returned (a :: l) = a :: p.window (returned + 1) l := by
  rw [window, window]
  split
  · rfl
  · rename_i n hn
    have := below n hn
    rw [show n - returned = (n - (returned + 1)) + 1 by omega, List.take_succ_cons]

theorem mem_of_mem_window {l : List α} {x : α} (h : x ∈ p.window returned l) : x ∈ l := by
  rw [window] at h
  split at h
  · exact h
  · exact List.mem_of_mem_take h

/-- Once the limit is reached, no further row is returned. -/
theorem window_of_reachedLimit (hp : p.timeLimit = none) {reason : StopReason}
    (h : Cursor.reachedLimit p returned = some reason) (l : List α) : p.window returned l = [] := by
  rw [window]
  cases hlimit : p.limit with
  | none => simp [Cursor.reachedLimit, hlimit, hp] at h
  | some n =>
    have hle : n ≤ returned := by
      by_contra hnot
      simp [Cursor.reachedLimit, hlimit, hp, hnot] at h
    dsimp only
    rw [Nat.sub_eq_zero_of_le hle, List.take_zero]

theorem lt_of_reachedLimit (h : Cursor.reachedLimit p returned = none) :
    ∀ n ∈ p.limit, returned < n := by
  intro n hn
  by_contra hnot
  rw [Cursor.reachedLimit, Option.mem_def.1 hn] at h
  simp [Nat.not_lt.1 hnot] at h

end ScanProperties

/-- What there is before the first error. -/
def untilError : List (Except ε β) → List β
  | .ok b :: rest => b :: untilError rest
  | _ => []

theorem mem_of_mem_untilError {l : List (Except ε β)} {b : β} (h : b ∈ untilError l) :
    Except.ok b ∈ l := by
  induction l with
  | nil => cases h
  | cons x l ih =>
    cases x with
    | error e => cases h
    | ok b' =>
      rcases List.mem_cons.1 h with rfl | h
      · exact List.mem_cons_self
      · exact List.mem_cons_of_mem _ (ih h)

theorem untilError_bind (l : List (Except ε β)) (f : β → Except ε γ) :
    untilError ((untilError l).map f) = untilError (l.map (· >>= f)) := by
  induction l with
  | nil => rfl
  | cons x l ih =>
    cases x with
    | ok b =>
      rw [untilError, List.map_cons, List.map_cons]
      show untilError (f b :: _) = untilError (f b :: _)
      cases f b with
      | ok c => exact congrArg (c :: ·) ih
      | error e => rfl
    | error e => rfl

theorem untilError_prefix {l l' : List (Except ε β)} (h : l <+: l') :
    untilError l <+: untilError l' := by
  induction l generalizing l' with
  | nil => exact List.nil_prefix
  | cons x l ih =>
    obtain ⟨rest, rfl⟩ := h
    cases x with
    | ok b => exact (List.prefix_cons_inj b).2 (ih (List.prefix_append l rest))
    | error e => exact List.nil_prefix

namespace Cursor

variable {S : World → World → Prop} {w : World}

section Rules

variable {c : Cursor α} {P : Outcome α → Prop}

theorem promises_rowsFrom (index : UInt64) (items : List α) :
    (rowsFrom index items).Promises S w fun o =>
      o.1.map Prod.fst = items ∧ o.2 = .stopped .sourceExhausted .done := by
  induction items generalizing index w with
  | nil => exact ⟨rfl, rfl⟩
  | cons a items ih =>
    intro w' hw'
    exact (ih (index + 1)).mono fun o ho => ⟨congrArg (a :: ·) ho.1, ho.2⟩

theorem promises_mapResult {onRow : α → Continuation → β × Continuation}
    {onStop : StopReason → Continuation → StopReason × Continuation} (h : c.Promises S w P) :
    (c.mapResult onRow onStop).Promises S w fun o =>
      ∃ o', P o' ∧ o.1 = o'.1.map fun x => onRow x.1 x.2 := by
  induction c generalizing w P with
  | row v t rest ih =>
    intro w' hw'
    refine (ih () (h w' hw')).mono fun o ho => ?_
    obtain ⟨o', ho', hrows⟩ := ho
    exact ⟨_, ho', congrArg (onRow v t :: ·) hrows⟩
  | stop | fail => exact ⟨_, h, rfl⟩
  | consult k ih => exact ih w h
  | commit w' c ih => exact ⟨h.1, ih h.2⟩
  | pause wait rest ih =>
    intro w' hw'
    exact ih () (h w' hw')

/-- Without a limit on time, rows are left out and returned as the request says. -/
theorem promises_limitFrom (hS : World.Passage S) {p : ScanProperties} (hp : p.timeLimit = none)
    (h : c.Promises S w P) {skip returned : Nat} (below : ∀ n ∈ p.limit, returned < n) :
    (limitFrom p skip returned c).Promises S w fun o =>
      ∃ o', P o' ∧ o.1 = p.window returned (o'.1.drop skip) := by
  induction c generalizing w P skip returned with
  | row v t rest ih =>
    rw [limitFrom]
    split
    · rename_i hskip
      subst hskip
      intro w' hw'
      dsimp only
      cases hreached : reachedLimit p (returned + 1) with
      | some reason =>
        obtain ⟨o', ho'⟩ := (h w' hw').exists_outcome hS
        have last : p.window returned ((v, t) :: o'.1) = [(v, t)] := by
          rw [p.window_cons below, p.window_of_reachedLimit hp hreached]
        show (stopFor reason t).Promises S w' _
        unfold stopFor
        split <;> exact ⟨_, ho', last.symm⟩
      | none =>
        refine (ih () (h w' hw') (p.lt_of_reachedLimit hreached)).mono fun o ho => ?_
        obtain ⟨o', ho', hrows⟩ := ho
        refine ⟨_, ho', ?_⟩
        rw [hrows, List.drop_zero, List.drop_zero, p.window_cons below]
    · rename_i hskip
      obtain ⟨k, rfl⟩ := Nat.exists_eq_succ_of_ne_zero hskip
      refine (ih () (h w (hS.refl w)) below).mono fun o ho => ?_
      obtain ⟨o', ho', hrows⟩ := ho
      exact ⟨_, ho', hrows⟩
  | stop r t => exact ⟨_, h, by rw [List.drop_nil, p.window_nil]⟩
  | fail e => exact ⟨_, h, by rw [List.drop_nil, p.window_nil]⟩
  | consult k ih => exact ih w h below
  | commit w' c ih => exact ⟨h.1, ih h.2 below⟩
  | pause wait rest ih =>
    intro w' hw'
    exact ih () (h w' hw') below

theorem map_fst_mapped (l : List (Except CursorError β × Continuation)) (e : Ending) :
    (mapped l e).1.map Prod.fst = untilError (l.map Prod.fst) := by
  induction l with
  | nil => rfl
  | cons x l ih =>
    obtain ⟨r, t⟩ := x
    cases r with
    | ok u => exact congrArg (u :: ·) ih
    | error err => rfl

theorem kept_one (l : List α) (e : Ending) : kept 1 l e = l := by
  cases e with
  | stopped => rfl
  | failed err => exact List.take_of_length_le (by omega)

end Rules

end Cursor

namespace Search

/-- The best hits of a query are the first ones of all in order. -/
theorem Partition.search_none (p : Partition) (query : Query) (count : Nat) :
    p.search query none count = if p.documents.isEmpty then .error p.notFound
      else .ok ⟨(p.matching query).length, (p.ranked query).take count⟩ := by
  have all : (p.matching query).filter (fun hit => (none : Option ScoreDoc).all hit.ranksAfter) =
      p.matching query := List.filter_eq_self.2 fun _ _ => rfl
  rw [search]
  dsimp only
  rw [all, ranked]

namespace Completion

open Cursor

variable (s : Completion)

/-! ### The hits -/

/-- All hits for what was typed, best first, with the reader that finds them. -/
def ranking (d : Directory) : Except SearchError (Reader × List ScoreDoc) := do
  let reader ← d.reader (s.index.place s.groupingKey)
  let fields ← reader.fieldNames d
  let _ ← reader.search d (s.query fields) none 0
  return (reader, (d.partition reader.place).ranked (s.query fields))

/-- In a partition that was written and whose reader is not faulty, the hits are those of the query
over the fields that carry terms. -/
theorem ranking_eq_ranked {d : Directory} {p : Partition}
    (hp : d.partition (s.index.place s.groupingKey) = p)
    (sound : (Ordered.find? (s.index.place s.groupingKey) d).map (·.faults) = some .clear)
    (written : p.documents.isEmpty = false) :
    s.ranking d = .ok (⟨s.index.place s.groupingKey, .clear⟩,
      p.ranked (s.query (p.postings.map (·.1)))) := by
  obtain ⟨shelf, hshelf, hfaults⟩ := Option.map_eq_some_iff.1 sound
  have reader : d.reader (s.index.place s.groupingKey) =
      .ok ⟨s.index.place s.groupingKey, .clear⟩ := by
    rw [Directory.reader, hshelf]
    show Except.ok (Reader.mk _ shelf.faults) = _
    rw [hfaults]
  have fields : (Reader.mk (s.index.place s.groupingKey) .clear).fieldNames d =
      .ok (p.postings.map (·.1)) := by
    show (d.partition (s.index.place s.groupingKey)).fieldNames = _
    rw [hp, Partition.fieldNames, written, if_neg (by decide)]
  have search (query : Query) : (Reader.mk (s.index.place s.groupingKey) .clear).search d query
      none 0 = .ok ⟨(p.matching query).length, (p.ranked query).take 0⟩ := by
    show (d.partition (s.index.place s.groupingKey)).search query none 0 = _
    rw [hp, Partition.search_none, written, if_neg (by decide)]
  rw [ranking, reader]
  show (Reader.fieldNames _ d >>= _) = _
  rw [fields]
  show (Reader.search _ d _ none 0 >>= _) = _
  rw [search]
  show Except.ok (_, (d.partition (s.index.place s.groupingKey)).ranked _) = _
  rw [hp]

/-- As many hits are looked up as rows are left out and returned. -/
theorem lookUp_eq_ranking (d : Directory) : s.lookUp d = (s.ranking d).map fun found =>
    (found.1, found.2.take (min (s.limit + s.skip) maxCount)) := by
  rw [lookUp, ranking]
  cases d.reader (s.index.place s.groupingKey) with
  | error e => rfl
  | ok reader =>
    show (reader.fieldNames d >>= _) = ((reader.fieldNames d >>= _) : Except _ _).map _
    cases reader.fieldNames d with
    | error e => rfl
    | ok fields =>
      show (reader.search d _ _ _ >>= _) = ((reader.search d _ _ 0 >>= _) : Except _ _).map _
      rw [Reader.search, Reader.search, Partition.search_none, Partition.search_none, Reader.ask,
        Reader.ask]
      split
      · rfl
      · split <;> rfl

/-! ### The entries of hits -/

/-- What a hit is loaded as. -/
def loadedIn (reader : Reader) (w : World) (hit : ScoreDoc) : Except CursorError LoadedHit :=
  s.load hit (w.lookUp (s.lookup reader hit)).2

/-- The entries of a hit. -/
def entriesOf (reader : Reader) (w : World) (hit : ScoreDoc) :
    Except CursorError (List IndexEntry) :=
  s.loadedIn reader w hit >>= s.suggestions

/-- The entries of hits in their order, up to the first hit that fails. -/
def entriesOfAll (reader : Reader) (w : World) (hits : List ScoreDoc) : List IndexEntry :=
  (untilError (hits.map (s.entriesOf reader w))).flatten

/-- The entries that a completion returns. -/
def entries (w : World) : List IndexEntry :=
  match s.lookUp w.directory with
  | .ok (reader, hits) => s.limits.window 0 ((s.entriesOfAll reader w hits).drop s.skip)
  | .error _ => []

/-- The rows that a completion returns when it is read to its end. -/
def returned (w : World) : List IndexEntry := (s.rows.run w).2.1.map Prod.fst

/-- The entries of some of the best hits. -/
def entriesOfBest (w : World) (count : Nat) : List IndexEntry :=
  match s.ranking w.directory with
  | .ok (reader, hits) => s.entriesOfAll reader w (hits.take count)
  | .error _ => []

theorem entries_eq (w : World) : s.entries w =
    s.limits.window 0 ((s.entriesOfBest w (min (s.limit + s.skip) maxCount)).drop s.skip) := by
  rw [entries, entriesOfBest, lookUp_eq_ranking]
  cases s.ranking w.directory with
  | error e =>
    rw [List.drop_nil, ScanProperties.window_nil]
    rfl
  | ok found => rfl

section Reading

variable {s} {w : World} {reader : Reader} {hits : List ScoreDoc}

theorem promises_loaded (hcalls : w.callsLeft = none) (hn : w.Numbered) :
    (s.loaded reader hits).Promises World.Steady w fun o =>
      o.1.map Prod.fst = untilError (hits.map (s.loadedIn reader w)) := by
  let depth := max 1 (s.index.records.config.pipelineSize .keyToRecord)
  have hdepth : 0 < depth := Nat.le_max_left _ _
  have source : (ofList hits).Promises World.Steady w fun o =>
      o.1.map Prod.fst = hits ∧ o.2 = .stopped .sourceExhausted .done :=
    promises_rowsFrom 0 hits
  have pipeline := promises_pipelineFrom World.passage_steady source
    (f := fun hit => .find (s.lookup reader hit) (s.load hit)) (g := s.loadedIn reader w)
    (fun o _ x _ => gives_find hcalls hn _ _) .nil hdepth
  refine (promises_mapResult pipeline).mono fun o ho => ?_
  obtain ⟨o', ⟨o'', ⟨hhits, hend⟩, rfl⟩, hrows⟩ := ho
  have values : o.1.map Prod.fst = (mapped (kept depth ([] ++ o''.1.map fun x =>
      (s.loadedIn reader w x.1, x.2)) o''.2) (o''.2.settled id)).1.map Prod.fst := by
    rw [hrows, List.map_map]
    rfl
  rw [values, hend, kept, List.nil_append, map_fst_mapped, List.map_map, ← hhits, List.map_map]
  rfl

/-- What comes of the inner cursor of a loaded hit. -/
def Suggests (s : Completion) (h : LoadedHit) (o : Outcome IndexEntry) : Prop :=
  match s.suggestions h with
  | .ok l => o.1.map Prod.fst = l ∧ o.2 = .stopped .sourceExhausted .done
  | .error e => o = ([], .failed e)

theorem gives_suggestions (h : LoadedHit) :
    (s.nesting.openInner h .start).Gives World.Steady w
      (OpensAs World.Steady w (s.Suggests h)) := by
  intro w' _
  show OpensAs World.Steady w (s.Suggests h) (s.suggestions h >>= fun l => list l .start)
  cases hs : s.suggestions h with
  | error e =>
    show s.Suggests h ([], .failed e)
    rw [Suggests, hs]
  | ok l =>
    intro w'' _
    refine (promises_rowsFrom 0 l).mono fun o ho => ?_
    rw [Suggests, hs]
    exact ho

/-- The inner cursors hand out the suggestions of the loaded hits up to the first that fails. -/
theorem rows_of_drains {outer : Continuation} {rows : List (LoadedHit × Continuation)} {e : Ending}
    {o : Outcome IndexEntry}
    (h : Drains (fun v _ => s.Suggests v) (openings s.nesting.check none outer rows) e o) :
    o.1.map Prod.fst = (untilError (rows.map fun x => s.suggestions x.1)).flatten := by
  have place (x : OuterValue) (l : List (IndexEntry × Continuation)) :
      (x.place l).map Prod.fst = l.map Prod.fst := by
    rw [OuterValue.place, List.map_map]
    rfl
  induction rows generalizing outer o with
  | nil =>
    cases h
    rfl
  | cons x rows ih =>
    rw [List.map_cons]
    cases h with
    | limit inner isLimit =>
      rw [Suggests] at inner
      split at inner
      · cases inner.2
        cases isLimit
      · cases inner
    | failed inner =>
      rw [Suggests] at inner
      split at inner
      · cases inner.2
      · rename_i hs
        cases inner
        rw [hs]
        rfl
    | next inner dry rest =>
      rw [Suggests] at inner
      split at inner
      · rename_i hs
        rw [List.map_append, place, inner.1, ih rest, hs]
        rfl
      · cases inner

/-- The nested iteration over the loaded hits hands out the entries of the hits. -/
theorem promises_nested (hcalls : w.callsLeft = none) (hn : w.Numbered) :
    ({ s.nesting with depth := max 1 s.nesting.depth }.rows none .start []
      (s.loaded reader hits)).Promises World.Steady w
        fun o => o.1.map Prod.fst = s.entriesOfAll reader w hits := by
  have source : (s.loaded reader hits).Promises World.Steady w _ := promises_loaded hcalls hn
  refine Promises.mono (Cursor.promises_rows World.passage_steady (Q := fun v _ => s.Suggests v)
    source (.refl w) (fun o _ x hx => ?_) .nil (Nat.le_max_left 1 1)) fun o ho => ?_
  · rw [start_of_mem_openings hx]
    exact gives_suggestions x.value
  obtain ⟨o', hloaded, drains⟩ := ho
  change Drains _ (kept 1 _ _) _ _ at drains
  rw [kept_one, List.nil_append] at drains
  have suggested : (untilError (hits.map (s.loadedIn reader w))).map s.suggestions =
      o'.1.map fun x => s.suggestions x.1 := by
    rw [← hloaded, List.map_map]
    rfl
  rw [rows_of_drains drains, ← suggested, untilError_bind, List.map_map]
  rfl

/-- A completion hands out its entries. -/
theorem promises_entries (hcalls : w.callsLeft = none) (hn : w.Numbered) :
    s.rows.Promises World.Steady w fun o => o.1.map Prod.fst = s.entries w := by
  rw [rows, promises_consult, entries]
  cases hlook : s.lookUp w.directory with
  | error e =>
    cases e with
    | indexNotFound => exact rfl
    | io => exact rfl
  | ok found =>
    obtain ⟨reader, hits⟩ := found
    have opened : s.nesting.openAt (fun _ => .ok (s.loaded reader hits)) .start = .ok _ :=
      openAt_eq_rows (u := .start) rfl (fun h => by cases h) rfl
    have reached : reachedLimit s.limits 0 = none := by
      unfold reachedLimit limits ScanProperties.withLimit ScanProperties.limitOf
      cases s.limit <;> rfl
    have positive : ∀ n ∈ s.limits.limit, 0 < n := by
      intro n hn
      have hn : ScanProperties.limitOf s.limit = some n := hn
      rw [ScanProperties.limitOf] at hn
      split at hn
      · cases hn
      · cases hn
        omega
    dsimp only
    rw [opened, skipThenLimit, reached]
    refine (promises_limitFrom World.passage_steady rfl (promises_nested hcalls hn)
      positive).mono fun o ho => ?_
    obtain ⟨o', hentries, hrows⟩ := ho
    rw [hrows, ← hentries, ← List.map_drop, ScanProperties.window, ScanProperties.window]
    split
    · rfl
    · exact List.map_take

theorem returned_eq_entries (hcalls : w.callsLeft = none) (hn : w.Numbered) :
    s.returned w = s.entries w :=
  (promises_entries hcalls hn).run World.passage_steady

/-- A completion returns the entries of the best hits that its rows ask for. -/
theorem returned_eq (hcalls : w.callsLeft = none) (hn : w.Numbered) (hlimit : 0 < s.limit)
    (fits : s.limit + s.skip ≤ maxCount) :
    s.returned w = ((s.entriesOfBest w (s.limit + s.skip)).drop s.skip).take s.limit := by
  have limit : ScanProperties.limitOf s.limit = some s.limit := if_neg (by omega)
  rw [returned_eq_entries hcalls hn, entries_eq, Nat.min_eq_left fits, ScanProperties.window]
  show (match ScanProperties.limitOf s.limit with | none => _ | some n => _) = _
  rw [limit]
  rfl

end Reading

end Completion

/-! ### Records that were saved -/

/-- The world after a record was saved for the first time and indexed. -/
def Index.withRecord (i : Index) (w : World) (r : Record) : World :=
  let saved := (i.records.save r w).1
  match i.update none (some r) saved.directory with
  | .ok d => { saved with directory := d }
  | .error _ => saved

end Search

end ResumableQuery
