import ResumableQuery.Proofs.Search.Phrases

/-!
# Spans

A span of a nearness query is made of one span of each clause, in order and without overlap, with at
most `slop` positions between them in total (`HasSpan`).  The index does not try all choices: for
each clause it takes the first span that follows.  What it reports is a span all the same
(`hasSpan_of_mem`), but it may miss some.  It misses none where it cannot gain room by giving up an
earlier span for a later one, because the later one ends no earlier and is no longer (`Orderly`):
then each step of the choice may be exchanged for the first span that follows
(`isSome_chain_of_chosen`), so every beginning of a span is reported
(`exists_mem_spans_of_hasSpan`).
-/

namespace ResumableQuery.Search

/-- What holds of queries for single positions and of queries without spans, of a masked query if it
holds of the query, and of a nearness query if it holds of its clauses, holds of all queries. -/
@[elab_as_elim]
theorem Query.ind {P : Query → Prop} (spanTerm : ∀ field t, P (.spanTerm field t))
    (spanStart : ∀ field start, P (.spanStart field start))
    (mask : ∀ q field, P q → P (.mask q field))
    (spanNear : ∀ field clauses slop, (∀ c ∈ clauses, P c) → P (.spanNear field clauses slop))
    (term : ∀ field t, P (.term field t)) (startOf : ∀ field start, P (.startOf field start))
    (phrase : ∀ field terms, P (.phrase field terms))
    (boolean : ∀ clauses minimum, P (.boolean clauses minimum)) (q : Query) : P q :=
  @Query.rec P (fun clauses => ∀ c ∈ clauses, P c) (fun _ => True) (fun _ => True) term startOf
    phrase spanTerm spanStart spanNear mask (fun clauses minimum _ => boolean clauses minimum)
    (List.forall_mem_nil _) (fun _ _ hc hrest => List.forall_mem_cons.2 ⟨hc, hrest⟩) trivial
    (fun _ _ _ _ => trivial) (fun _ _ _ => trivial) q

/-! ### What a span is -/

/-- The spans follow one another without overlap. -/
def InOrder (spans : List (Nat × Nat)) : Prop := spans.IsChain fun a b => a.2 ≤ b.1

/-- How many positions are left between consecutive spans in total. -/
def positionsBetween : List (Nat × Nat) → Nat
  | a :: b :: rest => (b.1 - a.2) + positionsBetween (b :: rest)
  | _ => 0

mutual

/-- The query has a span in the document, from its first position up to the one where it stops. -/
def HasSpan (d : StoredDocument) : Query → Nat × Nat → Prop
  | .spanTerm field t, s => (d.tokens field)[s.1]? = some t ∧ s.2 = s.1 + 1
  | .spanStart field start, s =>
    (∃ t, (d.tokens field)[s.1]? = some t ∧ beginsWith t start = true) ∧ s.2 = s.1 + 1
  | .mask q _, s => HasSpan d q s
  | .spanNear _ clauses slop, s =>
    ∃ chosen, Chosen d clauses chosen ∧ InOrder chosen ∧ positionsBetween chosen ≤ slop ∧
      chosen.head?.map (·.1) = some s.1 ∧ chosen.getLast?.map (·.2) = some s.2
  | _, _ => False

/-- The list has one span of each clause. -/
def Chosen (d : StoredDocument) : List Query → List (Nat × Nat) → Prop
  | [], chosen => chosen = []
  | c :: clauses, chosen => ∃ s rest, chosen = s :: rest ∧ HasSpan d c s ∧ Chosen d clauses rest

end

variable {d : StoredDocument} {q c : Query} {clauses : List Query} {field : String}

theorem InOrder.cons {a b : Nat × Nat} {rest : List (Nat × Nat)} (h : a.2 ≤ b.1)
    (hrest : InOrder (b :: rest)) : InOrder (a :: b :: rest) :=
  List.isChain_cons_cons.2 ⟨h, hrest⟩

theorem chosen_cons {s : Nat × Nat} {rest : List (Nat × Nat)} :
    Chosen d (c :: clauses) (s :: rest) ↔ HasSpan d c s ∧ Chosen d clauses rest := by
  simp [Chosen]

theorem Chosen.eq_cons {chosen : List (Nat × Nat)} (h : Chosen d (c :: clauses) chosen) :
    ∃ s rest, chosen = s :: rest ∧ HasSpan d c s ∧ Chosen d clauses rest := by
  rwa [Chosen] at h

/-- A span of a nearness query begins with a span of the first clause. -/
theorem hasSpan_near_iff {slop : Nat} {s : Nat × Nat} :
    HasSpan d (.spanNear field (c :: clauses) slop) s ↔ ∃ stop rest, HasSpan d c (s.1, stop) ∧
      Chosen d clauses rest ∧ InOrder ((s.1, stop) :: rest) ∧
      positionsBetween ((s.1, stop) :: rest) ≤ slop ∧
      ((s.1, stop) :: rest).getLast?.map (·.2) = some s.2 := by
  rw [HasSpan]
  constructor
  · rintro ⟨chosen, hchosen, order, room, hfirst, hlast⟩
    obtain ⟨⟨first, stop⟩, rest, rfl, hspan, hrest⟩ := hchosen.eq_cons
    obtain rfl : first = s.1 := Option.some.inj hfirst
    exact ⟨stop, rest, hspan, hrest, order, room, hlast⟩
  · rintro ⟨stop, rest, hspan, hrest, order, room, hlast⟩
    exact ⟨_, chosen_cons.2 ⟨hspan, hrest⟩, order, room, rfl, hlast⟩

theorem not_hasSpan_near_nil {slop : Nat} {s : Nat × Nat} :
    ¬HasSpan d (.spanNear field [] slop) s := by
  rw [HasSpan]
  rintro ⟨chosen, hchosen, -, -, hfirst, -⟩
  rw [Chosen] at hchosen
  simp [hchosen] at hfirst

/-! ### What is reported -/

namespace Partition

theorem allSpans_eq_map (d : StoredDocument) (clauses : List Query) :
    allSpans d clauses = clauses.map (spans d) := by
  induction clauses with
  | nil => rw [allSpans, List.map_nil]
  | cons c clauses ih => rw [allSpans, ih, List.map_cons]

theorem spans_near_nil (slop : Nat) : spans d (.spanNear field [] slop) = [] := by
  rw [spans, allSpans]

/-- What a nearness query reports: the spans of the first clause from which the others follow. -/
theorem mem_spans_near_iff {slop : Nat} {s : Nat × Nat} :
    s ∈ spans d (.spanNear field (c :: clauses) slop) ↔ ∃ stop, (s.1, stop) ∈ spans d c ∧
      chain slop stop (clauses.map (spans d)) = some s.2 := by
  rw [spans, allSpans, allSpans_eq_map]
  simp only [List.mem_filterMap, Option.map_eq_some_iff, Prod.exists]
  constructor
  · rintro ⟨first, stop, hmem, last, hchain, rfl⟩
    exact ⟨stop, hmem, hchain⟩
  · rintro ⟨stop, hmem, hchain⟩
    exact ⟨s.1, stop, hmem, s.2, hchain, rfl⟩

/-- Spans are reported in order of their beginnings, at most one for each. -/
theorem pairwise_spans (d : StoredDocument) (q : Query) :
    (spans d q).Pairwise fun a b => a.1 < b.1 := by
  induction q using Query.ind with
  | spanTerm | spanStart =>
    rw [spans]
    exact pairwise_positionsOf _ _
  | mask q field ih =>
    rw [spans]
    exact ih
  | spanNear field clauses slop ih =>
    cases clauses with
    | nil =>
      rw [spans_near_nil]
      exact .nil
    | cons c clauses =>
      rw [spans, allSpans]
      refine (ih c List.mem_cons_self).filterMap _ fun a b hab a' ha' b' hb' => ?_
      obtain ⟨_, -, rfl⟩ := Option.map_eq_some_iff.1 ha'
      obtain ⟨_, -, rfl⟩ := Option.map_eq_some_iff.1 hb'
      exact hab
  | _ =>
    rw [spans]
    · exact .nil
    all_goals simp

/-- Spans that were taken one after the other follow each other within the room there is. -/
theorem exists_chosen_of_chain {room stop last : Nat} (first : Nat)
    (hclauses : ∀ c ∈ clauses, ∀ s ∈ spans d c, HasSpan d c s)
    (h : chain room stop (clauses.map (spans d)) = some last) :
    ∃ rest, Chosen d clauses rest ∧ InOrder ((first, stop) :: rest) ∧
      positionsBetween ((first, stop) :: rest) ≤ room ∧
      ((first, stop) :: rest).getLast?.map (·.2) = some last := by
  induction clauses generalizing room first stop with
  | nil =>
    rw [List.map_nil, chain] at h
    exact ⟨[], by rw [Chosen], .singleton _, Nat.zero_le _, by simpa using h⟩
  | cons c clauses ih =>
    rw [List.map_cons, chain] at h
    split at h
    · cases h
    · rename_i next stop' hfind
      have hle : stop ≤ next := by simpa using List.find?_some hfind
      have hspan : HasSpan d c (next, stop') :=
        hclauses c List.mem_cons_self _ (List.mem_of_find?_eq_some hfind)
      dsimp only at h
      split at h
      · obtain ⟨rest, hrest, order, hroom, hlast⟩ :=
          ih next (fun c hc => hclauses c (List.mem_cons_of_mem _ hc)) h
        refine ⟨(next, stop') :: rest, chosen_cons.2 ⟨hspan, hrest⟩, order.cons hle, ?_, ?_⟩
        · rw [positionsBetween]
          dsimp only
          omega
        · rwa [List.getLast?_cons_cons]
      · cases h

/-- Whatever is reported for a query is a span of it. -/
theorem hasSpan_of_mem {s : Nat × Nat} (h : s ∈ spans d q) : HasSpan d q s := by
  induction q using Query.ind generalizing s with
  | spanTerm field t =>
    rw [spans, mem_positionsOf] at h
    obtain ⟨t', hget, ht, hstop⟩ := h
    rw [HasSpan, ← beq_iff_eq.1 ht]
    exact ⟨hget, hstop⟩
  | spanStart field start =>
    rw [spans, mem_positionsOf] at h
    obtain ⟨t, hget, ht, hstop⟩ := h
    rw [HasSpan]
    exact ⟨⟨t, hget, ht⟩, hstop⟩
  | mask q field ih =>
    rw [spans] at h
    rw [HasSpan]
    exact ih h
  | spanNear field clauses slop ih =>
    cases clauses with
    | nil =>
      rw [spans_near_nil] at h
      cases h
    | cons c clauses =>
      obtain ⟨stop, hmem, hchain⟩ := mem_spans_near_iff.1 h
      obtain ⟨rest, hrest, order, hroom, hlast⟩ := exists_chosen_of_chain s.1
        (fun c hc s => ih c (List.mem_cons_of_mem _ hc)) hchain
      exact hasSpan_near_iff.2
        ⟨stop, rest, ih c List.mem_cons_self hmem, hrest, order, hroom, hlast⟩
  | _ =>
    rw [spans] at h
    · cases h
    all_goals simp

/-! ### What is missed -/

/-- The first of some spans, in order of their beginnings, that does not begin before a position. -/
theorem exists_find?_eq {l : List (Nat × Nat)} (sorted : l.Pairwise fun a b => a.1 < b.1)
    {stop : Nat} {s : Nat × Nat} (h : s ∈ l) (hs : stop ≤ s.1) :
    ∃ t, l.find? (fun x => decide (stop ≤ x.1)) = some t ∧ t.1 ≤ s.1 := by
  induction l with
  | nil => cases h
  | cons a l ih =>
    obtain ⟨ha, hl⟩ := List.pairwise_cons.1 sorted
    by_cases hstop : stop ≤ a.1
    · refine ⟨a, by simp [hstop], ?_⟩
      rcases List.mem_cons.1 h with rfl | h
      · exact Nat.le_refl _
      · exact Nat.le_of_lt (ha s h)
    · rcases List.mem_cons.1 h with rfl | h
      · exact absurd hs hstop
      · simpa [hstop] using ih hl h

end Partition

/-- Of two spans the one that begins later does not end earlier and is not longer. -/
def Orderly (spans : Nat × Nat → Prop) : Prop :=
  ∀ a b, spans a → spans b → a.1 ≤ b.1 → a.2 ≤ b.2 ∧ b.2 - b.1 ≤ a.2 - a.1

mutual

/-- In each nearness query, at any depth, all clauses but the last have a property. -/
def Query.AllButLast (P : Query → Prop) : Query → Prop
  | .mask q _ => q.AllButLast P
  | .spanNear _ clauses _ => ClausesButLast P clauses
  | _ => True

/-- All clauses but the last have a property, and so have those within each clause. -/
def ClausesButLast (P : Query → Prop) : List Query → Prop
  | [] => True
  | c :: rest => (rest ≠ [] → P c) ∧ c.AllButLast P ∧ ClausesButLast P rest

end

theorem Chosen.le_last {chosen : List (Nat × Nat)} {a : Nat × Nat} {last : Nat}
    (hclauses : ∀ c ∈ clauses, ∀ s, HasSpan d c s → s.1 < s.2) (h : Chosen d clauses chosen)
    (order : InOrder (a :: chosen)) (hlast : (a :: chosen).getLast?.map (·.2) = some last) :
    a.2 ≤ last := by
  induction clauses generalizing chosen a with
  | nil =>
    rw [Chosen] at h
    subst h
    exact Nat.le_of_eq (by simpa using hlast)
  | cons c clauses ih =>
    obtain ⟨s, rest, rfl, hspan, hrest⟩ := h.eq_cons
    obtain ⟨hle, order⟩ := List.isChain_cons_cons.1 order
    rw [List.getLast?_cons_cons] at hlast
    have hpos := hclauses c List.mem_cons_self s hspan
    have := ih (fun c hc => hclauses c (List.mem_cons_of_mem _ hc)) hrest order hlast
    omega

/-- No span is empty. -/
theorem HasSpan.lt {s : Nat × Nat} (h : HasSpan d q s) : s.1 < s.2 := by
  induction q using Query.ind generalizing s with
  | spanTerm | spanStart =>
    rw [HasSpan] at h
    omega
  | mask q field ih =>
    rw [HasSpan] at h
    exact ih h
  | spanNear field clauses slop ih =>
    cases clauses with
    | nil => exact absurd h not_hasSpan_near_nil
    | cons c clauses =>
      obtain ⟨stop, rest, hspan, hrest, order, -, hlast⟩ := hasSpan_near_iff.1 h
      have hfirst := ih c List.mem_cons_self hspan
      have hle := hrest.le_last (fun c hc s => ih c (List.mem_cons_of_mem _ hc)) order hlast
      dsimp only at hfirst hle
      omega
  | _ =>
    rw [HasSpan] at h
    · cases h
    all_goals simp

namespace Partition

/-- If some choice of spans fits behind `a`, then so does the choice of first spans, also behind a
stop that is earlier than that of `a`, provided that there is that much more room. -/
theorem isSome_chain_of_chosen {chosen : List (Nat × Nat)} {a : Nat × Nat} {room stop : Nat}
    (reported : ∀ c ∈ clauses, c.AllButLast (fun c => Orderly (HasSpan d c)) →
      ∀ s, HasSpan d c s → ∃ stop, (s.1, stop) ∈ spans d c)
    (orderly : ClausesButLast (fun c => Orderly (HasSpan d c)) clauses)
    (h : Chosen d clauses chosen) (order : InOrder (a :: chosen)) (hstop : stop ≤ a.2)
    (hroom : positionsBetween (a :: chosen) + (a.2 - stop) ≤ room) :
    (chain room stop (clauses.map (spans d))).isSome := by
  induction clauses generalizing chosen a room stop with
  | nil => rw [List.map_nil, chain, Option.isSome_some]
  | cons c clauses ih =>
    obtain ⟨s, rest, rfl, hspan, hrest⟩ := h.eq_cons
    obtain ⟨hle, order⟩ := List.isChain_cons_cons.1 order
    obtain ⟨horderly, hinner, hclauses⟩ : _ ∧ _ ∧ _ := by rwa [ClausesButLast] at orderly
    rw [positionsBetween] at hroom
    obtain ⟨stop', hmem⟩ := reported c List.mem_cons_self hinner s hspan
    obtain ⟨⟨next, next'⟩, hfind, hnext⟩ :=
      exists_find?_eq (pairwise_spans d c) hmem (show stop ≤ s.1 by omega)
    have hlow : stop ≤ next := by simpa using List.find?_some hfind
    rw [List.map_cons, chain, hfind]
    dsimp only at hnext ⊢
    rw [if_pos (by omega)]
    by_cases hlast : clauses = []
    · rw [hlast, List.map_nil, chain, Option.isSome_some]
    · have hfound : HasSpan d c (next, next') := hasSpan_of_mem (List.mem_of_find?_eq_some hfind)
      obtain ⟨hstops, hlengths⟩ := horderly hlast _ _ hfound hspan hnext
      have := hfound.lt
      have := hspan.lt
      dsimp only at *
      refine ih (fun c hc => reported c (List.mem_cons_of_mem _ hc)) hclauses hrest order hstops ?_
      omega

/-- Where the spans of all clauses but the last are orderly, every beginning of a span is
reported. -/
theorem exists_mem_spans_of_hasSpan (orderly : q.AllButLast fun c => Orderly (HasSpan d c))
    {s : Nat × Nat} (h : HasSpan d q s) : ∃ stop, (s.1, stop) ∈ spans d q := by
  induction q using Query.ind generalizing s with
  | spanTerm field t =>
    rw [HasSpan] at h
    rw [spans]
    exact ⟨s.1 + 1, mem_positionsOf.2 ⟨t, h.1, beq_self_eq_true t, rfl⟩⟩
  | spanStart field start =>
    rw [HasSpan] at h
    obtain ⟨⟨t, hget, ht⟩, -⟩ := h
    rw [spans]
    exact ⟨s.1 + 1, mem_positionsOf.2 ⟨t, hget, ht, rfl⟩⟩
  | mask q field ih =>
    rw [HasSpan] at h
    rw [Query.AllButLast] at orderly
    rw [spans]
    exact ih orderly h
  | spanNear field clauses slop ih =>
    rw [Query.AllButLast] at orderly
    cases clauses with
    | nil => exact absurd h not_hasSpan_near_nil
    | cons c clauses =>
      obtain ⟨stop, rest, hspan, hrest, order, hroom, -⟩ := hasSpan_near_iff.1 h
      obtain ⟨horderly, hinner, hclauses⟩ : _ ∧ _ ∧ _ := by rwa [ClausesButLast] at orderly
      obtain ⟨stop', hmem⟩ := ih c List.mem_cons_self hinner hspan
      have follow : (chain slop stop' (clauses.map (spans d))).isSome := by
        by_cases hlast : clauses = []
        · rw [hlast, List.map_nil, chain, Option.isSome_some]
        · have hstop := (horderly hlast _ _ (hasSpan_of_mem hmem) hspan (Nat.le_refl _)).1
          have hstop' := (horderly hlast _ _ hspan (hasSpan_of_mem hmem) (Nat.le_refl _)).1
          refine isSome_chain_of_chosen
            (fun c hc hinner s => ih c (List.mem_cons_of_mem _ hc) hinner)
            hclauses hrest order hstop ?_
          dsimp only at *
          omega
      obtain ⟨last, hlast⟩ := Option.isSome_iff_exists.1 follow
      exact ⟨last, mem_spans_near_iff.2 ⟨stop', hmem, hlast⟩⟩
  | _ =>
    rw [HasSpan] at h
    · cases h
    all_goals simp

end Partition

/-! ### Queries with spans of one width -/

mutual

/-- How many positions each span of the query takes, if the query alone says so. -/
def Query.width? : Query → Option Nat
  | .spanTerm _ _ | .spanStart _ _ => some 1
  | .mask q _ => q.width?
  | .spanNear _ clauses slop => if slop = 0 then totalWidth? clauses else none
  | _ => none

/-- How many positions spans of the clauses take together. -/
def totalWidth? : List Query → Option Nat
  | [] => some 0
  | c :: rest => c.width?.bind fun n => (totalWidth? rest).map (n + ·)

end

theorem Query.AllButLast.mono {P Q : Query → Prop} (h : ∀ c, P c → Q c) (hq : q.AllButLast P) :
    q.AllButLast Q := by
  induction q using Query.ind with
  | mask q field ih =>
    rw [Query.AllButLast] at hq ⊢
    exact ih hq
  | spanNear field clauses slop ih =>
    rw [Query.AllButLast] at hq ⊢
    induction clauses with
    | nil => trivial
    | cons c clauses ihClauses =>
      rw [ClausesButLast] at hq ⊢
      obtain ⟨hc, hinner, hrest⟩ := hq
      exact ⟨fun hne => h c (hc hne), ih c List.mem_cons_self hinner,
        ihClauses (fun c hc => ih c (List.mem_cons_of_mem _ hc)) hrest⟩
  | _ =>
    rw [Query.AllButLast]
    · trivial
    all_goals simp

/-- Spans that leave no positions between them end where their widths say. -/
theorem Chosen.last_eq {chosen : List (Nat × Nat)} {a : Nat × Nat} {last n : Nat}
    (hclauses : ∀ c ∈ clauses, ∀ s m, HasSpan d c s → c.width? = some m → s.2 = s.1 + m)
    (h : Chosen d clauses chosen) (order : InOrder (a :: chosen))
    (none : positionsBetween (a :: chosen) = 0) (hwidth : totalWidth? clauses = some n)
    (hlast : (a :: chosen).getLast?.map (·.2) = some last) : last = a.2 + n := by
  induction clauses generalizing chosen a n with
  | nil =>
    rw [Chosen] at h
    subst h
    rw [totalWidth?] at hwidth
    simp_all
  | cons c clauses ih =>
    obtain ⟨s, rest, rfl, hspan, hrest⟩ := h.eq_cons
    obtain ⟨hle, order⟩ := List.isChain_cons_cons.1 order
    rw [totalWidth?] at hwidth
    obtain ⟨m, hm, hwidth⟩ := Option.bind_eq_some_iff.1 hwidth
    obtain ⟨k, hk, rfl⟩ := Option.map_eq_some_iff.1 hwidth
    rw [positionsBetween] at none
    rw [List.getLast?_cons_cons] at hlast
    have hs := hclauses c List.mem_cons_self s m hspan hm
    have := ih (fun c hc => hclauses c (List.mem_cons_of_mem _ hc)) hrest order (by omega) hk hlast
    omega

theorem HasSpan.stop_eq {s : Nat × Nat} {n : Nat} (h : HasSpan d q s) (hwidth : q.width? = some n) :
    s.2 = s.1 + n := by
  induction q using Query.ind generalizing s n with
  | spanTerm | spanStart =>
    rw [HasSpan] at h
    rw [Query.width?] at hwidth
    rw [h.2, Option.some.inj hwidth]
  | mask q field ih =>
    rw [HasSpan] at h
    rw [Query.width?] at hwidth
    exact ih h hwidth
  | spanNear field clauses slop ih =>
    rw [Query.width?] at hwidth
    split at hwidth
    · cases clauses with
      | nil => exact absurd h not_hasSpan_near_nil
      | cons c clauses =>
        obtain ⟨stop, rest, hspan, hrest, order, hroom, hlast⟩ := hasSpan_near_iff.1 h
        rw [totalWidth?] at hwidth
        obtain ⟨m, hm, hwidth⟩ := Option.bind_eq_some_iff.1 hwidth
        obtain ⟨k, hk, rfl⟩ := Option.map_eq_some_iff.1 hwidth
        have hfirst := ih c List.mem_cons_self hspan hm
        have := hrest.last_eq (fun c hc s m => ih c (List.mem_cons_of_mem _ hc)) order (by omega) hk
          hlast
        dsimp only at *
        omega
    · cases hwidth
  | _ =>
    rw [HasSpan] at h
    · cases h
    all_goals simp

/-- Spans of one width are orderly. -/
theorem orderly_of_width (h : q.width?.isSome) : Orderly (HasSpan d q) := by
  obtain ⟨n, hn⟩ := Option.isSome_iff_exists.1 h
  intro a b ha hb hab
  have := ha.stop_eq hn
  have := hb.stop_eq hn
  omega

/-! ### Documents that match -/

namespace Partition

theorem isSome_score_near {p : Partition} {slop : Nat} :
    (p.score d (.spanNear field clauses slop)).isSome ↔
      ∃ s, s ∈ spans d (.spanNear field clauses slop) := by
  rw [score]
  · rw [isSome_frequencyScore, ne_eq, List.length_eq_zero_iff, List.eq_nil_iff_forall_not_mem]
    simp
  all_goals simp

/-- What a nearness query reports are spans of it, so a document that matches has a span.  The other
way round, a document with a span matches if the spans that it has of all clauses but the last, in
each nearness query at any depth, are orderly; then the spans that are reported begin where spans
begin.  That is so in every document if these clauses have spans of one width, as terms, beginnings
of words and phrases of such clauses have. -/
theorem near_matches_spans (p : Partition) (d : StoredDocument) (field : String)
    (clauses : List Query) (slop : Nat) :
    let near := Query.spanNear field clauses slop
    (∀ s ∈ spans d near, HasSpan d near s) ∧
      ((p.score d near).isSome → ∃ s, HasSpan d near s) ∧
      ((near.AllButLast fun c => Orderly (HasSpan d c)) →
        (∀ first, (∃ stop, (first, stop) ∈ spans d near) ↔
          ∃ stop, HasSpan d near (first, stop)) ∧
        ((p.score d near).isSome ↔ ∃ s, HasSpan d near s)) ∧
      ((near.AllButLast fun c => c.width?.isSome) →
        near.AllButLast fun c => Orderly (HasSpan d c)) := by
  intro near
  have matched : (p.score d near).isSome ↔ ∃ s, s ∈ spans d near := isSome_score_near
  have sound : (p.score d near).isSome → ∃ s, HasSpan d near s := by
    intro h
    obtain ⟨s, hs⟩ := matched.1 h
    exact ⟨s, hasSpan_of_mem hs⟩
  refine ⟨fun s hs => hasSpan_of_mem hs, sound, fun orderly => ⟨fun first => ?_, sound, ?_⟩,
    Query.AllButLast.mono fun c => orderly_of_width⟩
  · constructor
    · rintro ⟨stop, hmem⟩
      exact ⟨stop, hasSpan_of_mem hmem⟩
    · rintro ⟨stop, hspan⟩
      exact exists_mem_spans_of_hasSpan orderly hspan
  · rintro ⟨s, hspan⟩
    obtain ⟨stop, hmem⟩ := exists_mem_spans_of_hasSpan orderly hspan
    exact matched.2 ⟨_, hmem⟩

/-- A note with a text, in the partition that holds nothing else. -/
def sampleNote (text : String) : Partition × StoredDocument :=
  (((empty "notes" []).add [.int 1] [("body", text)]).1, .ofTexts [.int 1] [("body", text)])

/-- The words a and b with at most `slop` positions between them, and c right behind them. -/
def abThenC (slop : Nat) : Query :=
  .spanNear "body" [.spanNear "body" [.spanTerm "body" "a", .spanTerm "body" "b"] slop,
    .spanTerm "body" "c"] 0

theorem hasSpan_abThenC {slop i j : Nat} (ha : (d.tokens "body")[i]? = some "a")
    (hb : (d.tokens "body")[j]? = some "b") (hc : (d.tokens "body")[j + 1]? = some "c")
    (hij : i < j) (hroom : j - (i + 1) ≤ slop) : HasSpan d (abThenC slop) (i, j + 2) := by
  have inner : HasSpan d
      (.spanNear "body" [.spanTerm "body" "a", .spanTerm "body" "b"] slop) (i, j + 1) := by
    rw [HasSpan]
    refine ⟨[(i, i + 1), (j, j + 1)], ?_, ?_, hroom, rfl, rfl⟩
    · simp [Chosen, HasSpan, ha, hb]
    · exact .cons hij (.singleton _)
  rw [abThenC, HasSpan]
  refine ⟨[(i, j + 1), (j + 1, j + 2)], ?_, ?_, by simp [positionsBetween], rfl, rfl⟩
  · exact chosen_cons.2 ⟨inner, by simp [Chosen, HasSpan, hc]⟩
  · exact .cons (Nat.le_refl _) (.singleton _)

/-- The phrase of a and b has spans of one width, so a note with all three words in order
matches. -/
theorem near_matches_spans_sample :
    ((abThenC 0).AllButLast fun c => Orderly (HasSpan (sampleNote "a b c").2 c)) ∧
      ((sampleNote "a b c").1.score (sampleNote "a b c").2 (abThenC 0)).isSome := by
  obtain ⟨-, -, complete, orderly⟩ := near_matches_spans (sampleNote "a b c").1
    (sampleNote "a b c").2 "body" [.spanNear "body" [.spanTerm "body" "a", .spanTerm "body" "b"] 0,
      .spanTerm "body" "c"] 0
  have widths : (abThenC 0).AllButLast fun c => c.width?.isSome := by
    simp [abThenC, Query.AllButLast, ClausesButLast, Query.width?, totalWidth?]
  have span : HasSpan (sampleNote "a b c").2 (abThenC 0) (0, 3) := by
    have tokens : (sampleNote "a b c").2.tokens "body" = ["a", "b", "c"] := by decide +kernel
    apply hasSpan_abThenC <;> simp [tokens]
  exact ⟨orderly widths, (complete (orderly widths)).2.2 ⟨_, span⟩⟩

/-- Two spans of the first clause begin at the first position.  The longer one has c right behind
it, but the shorter one is reported. -/
theorem near_misses_span : (∃ s, HasSpan (sampleNote "a b b c").2 (abThenC 1) s) ∧
    ((sampleNote "a b b c").1.score (sampleNote "a b b c").2 (abThenC 1)).isSome = false := by
  have tokens : (sampleNote "a b b c").2.tokens "body" = ["a", "b", "b", "c"] := by decide +kernel
  refine ⟨⟨(0, 4), ?_⟩, by decide +kernel⟩
  apply hasSpan_abThenC <;> simp [tokens]

end Partition

end ResumableQuery.Search
