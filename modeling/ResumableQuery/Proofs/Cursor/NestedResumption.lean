import ResumableQuery.Proofs.Cursor.Pipelining
import ResumableQuery.Proofs.Cursor.Resumption

/-!
# Nested iterations are resumed where they were left

A continuation of a nested iteration says where the outer cursor stands before the value whose inner
cursor is being read, and where that inner cursor stands.  What is ahead of it is therefore the rest
of one inner cursor and then the whole of the inner cursors of the outer values that follow
(`nestedAhead`).  Values that were read ahead, and inner cursors that were opened for them, are in
no continuation and are read and opened again.

What an iteration hands out is described by `Drains`, whatever its depth; where it was left is found
by following the rows of the outer cursor (`Drains.exists_leftAt`), and what it has ahead from there
comes of it if nothing limits it (`Drains.eq_nestedAhead`).  Together they are the law of
`nested_resumes`, which breaks in one case only (`returns_row_again`).
-/

namespace ResumableQuery

namespace Cursor

open Merge (Course Interrupted listCourse singly hands_list hands_limitedList)

variable {S : World → World → Prop} {w : World}

/-- What was recorded is read back from a continuation of a nested iteration. -/
theorem Nesting.resume_position {o : OuterValue} {inner : Continuation}
    (houter : o.prior.toBytes.length < 2 ^ 64) (hcheck : ∀ b ∈ o.check, b.length < 2 ^ 64)
    (hinner : inner.toBytes.length < 2 ^ 64) :
    Nesting.resume (o.position inner) = .ok (o.prior, some (o.check, inner)) := by
  have hread := FlatMapPosition.position_toContinuation
    (p := FlatMapPosition.of o.prior o.check inner) houter hcheck hinner
  rw [FlatMapPosition.toContinuation] at hread
  rw [OuterValue.position, FlatMapPosition.toContinuation, Nesting.resume]
  · rw [hread]
    simp only [FlatMapPosition.of, Continuation.ofBytes_toBytes]
  · exact nofun

/-! ### Keeping to a course -/

/-- What has come of a cursor that was opened at a continuation keeps to a course: each of its rows
is the next one ahead, and it ends when there is none.  Within limits it may also stop anywhere, or
fail. -/
def Merge.Course.Accounts (D : Course α) (limited : Bool) :
    Continuation → List (α × Continuation) → Ending → Prop
  | c, [], .stopped r t =>
    if r.isLimit then limited = true ∧ D.issued t ∧ D.ahead t = D.ahead c else D.ahead c = []
  | _, [], .failed _ => limited = true
  | c, (v, t) :: rows, e => D.issued t ∧ D.ahead c = v :: D.ahead t ∧ D.Accounts limited t rows e

section Accounts

variable {D : Course α} {limited : Bool} {c t : Continuation} {rows : List (α × Continuation)}
  {e : Ending}

theorem Merge.Course.Accounts.left (h : D.Accounts limited c rows e) {vs : List α}
    (hleft : Interrupted rows e vs t) : D.issued t ∧ D.ahead c = vs ++ D.ahead t := by
  induction rows generalizing c vs with
  | nil =>
    cases hleft with
    | row rows_eq => simp at rows_eq
    | limit ending isLimit =>
      subst ending
      rw [Accounts, if_pos isLimit] at h
      exact ⟨h.2.1, h.2.2.symm⟩
  | cons x rows ih =>
    obtain ⟨v, t'⟩ := x
    obtain ⟨issued, ahead, rest⟩ := h
    cases hleft with
    | @row before u _ after rows_eq =>
      cases before with
      | nil =>
        obtain ⟨hrow, -⟩ := List.cons.inj rows_eq
        cases hrow
        exact ⟨issued, ahead⟩
      | cons b before =>
        obtain ⟨rfl, hrows⟩ := List.cons.inj rows_eq
        obtain ⟨ht, hahead⟩ := ih rest (.row hrows)
        exact ⟨ht, by rw [ahead, hahead]; rfl⟩
    | limit ending isLimit =>
      obtain ⟨ht, hahead⟩ := ih rest (.limit ending isLimit)
      exact ⟨ht, by rw [ahead, hahead]; rfl⟩

theorem Merge.Course.Accounts.dry {r : StopReason}
    (h : D.Accounts limited c rows (.stopped r t)) (hr : r.isLimit = false) :
    D.ahead c = rows.map Prod.fst := by
  induction rows generalizing c with
  | nil => rwa [Accounts, if_neg (Bool.eq_false_iff.1 hr)] at h
  | cons x rows ih =>
    obtain ⟨-, ahead, rest⟩ := h
    rw [ahead, ih rest, List.map_cons]

/-- Without limits a cursor stops only once there is nothing ahead. -/
theorem Merge.Course.Accounts.exhausted (h : D.Accounts false c rows e) :
    ∃ r t, e = .stopped r t ∧ r.isLimit = false := by
  induction rows generalizing c with
  | nil =>
    cases e with
    | stopped r t =>
      rw [Accounts] at h
      split at h
      · exact absurd h.1 Bool.false_ne_true
      · exact ⟨r, t, rfl, Bool.eq_false_iff.2 (by assumption)⟩
    | failed => exact absurd h Bool.false_ne_true
  | cons x rows ih => exact ih h.2.2

end Accounts

/-! ### Rows among others -/

theorem OuterValue.interrupted_place {o : OuterValue} {rows : List (β × Continuation)}
    {e e' : Ending} {vs : List β} {t : Continuation} (hleft : Interrupted (o.place rows) e' vs t)
    (hend : ∀ r, r.isLimit = true → e' = .stopped r t →
      ∃ s, t = o.position s ∧ e = .stopped r s) :
    ∃ s, t = o.position s ∧ Interrupted rows e vs s := by
  cases hleft with
  | row rows_eq =>
    obtain ⟨before, more, rfl, rfl, hmore⟩ := List.map_eq_append_iff.1 rows_eq
    obtain ⟨⟨v, s⟩, after, rfl, hrow, -⟩ := List.map_eq_cons_iff.1 hmore
    cases hrow
    refine ⟨s, rfl, ?_⟩
    rw [List.map_map]
    exact .row rfl
  | limit ending isLimit =>
    obtain ⟨s, hs, he⟩ := hend _ isLimit ending
    refine ⟨s, hs, ?_⟩
    rw [OuterValue.place, List.map_map]
    exact .limit he isLimit

theorem Ending.eq_of_settled {place : Continuation → Continuation} {e : Ending} {r : StopReason}
    {t : Continuation} (h : e.settled place = .stopped r t) (hr : r.isLimit = true) :
    ∃ t₀, e = .stopped r t₀ ∧ t = place t₀ := by
  cases e with
  | failed => cases h
  | stopped r₀ t₀ =>
    rw [Ending.settled] at h
    split at h
    · cases h
      exact ⟨t₀, rfl, rfl⟩
    · cases h
      cases hr

theorem Merge.Interrupted.of_append {a b : List (β × Continuation)} {e : Ending} {vs : List β}
    {t : Continuation} (hleft : Interrupted (a ++ b) e vs t) :
    (∀ e', Interrupted a e' vs t) ∨
      ∃ vs', vs = a.map Prod.fst ++ vs' ∧ Interrupted b e vs' t := by
  cases hleft with
  | row rows_eq =>
    rcases List.append_eq_append_iff.1 rows_eq with ⟨before, rfl, hb⟩ | ⟨more, ha, hb⟩
    · refine .inr ⟨_, ?_, .row hb⟩
      rw [List.map_append, List.append_assoc]
    · cases more with
      | nil =>
        rw [List.append_nil] at ha
        subst ha
        exact .inr ⟨([] : List (β × Continuation)).map Prod.fst ++ [_], rfl, .row hb.symm⟩
      | cons x more =>
        obtain ⟨rfl, -⟩ := List.cons.inj hb
        exact .inl fun _ => .row ha
  | limit ending isLimit =>
    refine .inr ⟨_, ?_, .limit ending isLimit⟩
    rw [List.map_append]

/-! ### What is ahead of a nested iteration -/

section Ahead

variable (D : Course α) (I : α → Course β) (check : Option (α → Bytes))

/-- The rows of the inner cursors of all outer values that are ahead; that of the first one goes on
where it is recorded. -/
def nestedAhead (recorded : Recorded) (outer : Continuation) : List β :=
  match D.ahead outer with
  | [] => []
  | v :: vs =>
    (I v).ahead (innerStart recorded check.isSome (check.map (· v))) ++
      vs.flatMap fun v => (I v).ahead .start

/-- Where a nested iteration may be left: inside of an inner cursor, or between two of them. -/
inductive LeftAt : OuterValue → Continuation → Prop
  | inside {prior v vs s} (issued : D.issued prior) (ahead : D.ahead prior = v :: vs)
      (inner : (I v).issued s) : LeftAt ⟨prior, check.map (· v)⟩ s
  | between {prior} (issued : D.issued prior) : LeftAt ⟨prior, none⟩ .start

variable {D I check} {u : Continuation} {recorded : Recorded}

theorem nestedAhead_of_cons {v : α} {vs : List α} (h : D.ahead u = v :: vs) :
    nestedAhead D I check recorded u =
      (I v).ahead (innerStart recorded check.isSome (check.map (· v))) ++
        vs.flatMap fun v => (I v).ahead .start := by
  rw [nestedAhead, h]

theorem nestedAhead_of_innerStart (h : ∀ k, innerStart recorded check.isSome k = .start) :
    nestedAhead D I check recorded u = (D.ahead u).flatMap fun v => (I v).ahead .start := by
  unfold nestedAhead
  cases D.ahead u with
  | nil => rfl
  | cons v vs =>
    simp only
    rw [h, List.flatMap_cons]

theorem innerStart_none (checked : Bool) (k : Option Bytes) : innerStart none checked k = .start :=
  rfl

theorem innerStart_between (checked : Bool) (k : Option Bytes) :
    innerStart (some (none, .start)) checked k = .start :=
  ite_self _

theorem innerStart_self (checked : Bool) (k : Option Bytes) (s : Continuation) :
    innerStart (some (k, s)) checked k = s := by
  simp [innerStart]

theorem nestedAhead_inside {v : α} {vs : List α} (h : D.ahead u = v :: vs) (s : Continuation) :
    nestedAhead D I check (some (check.map (· v), s)) u =
      (I v).ahead s ++ vs.flatMap fun v => (I v).ahead .start := by
  rw [nestedAhead_of_cons h, innerStart_self]

end Ahead

/-! ### What a nested iteration leaves -/

section Left

variable {D : Course α} {I : α → Course β} {check : Option (α → Bytes)} {u : Continuation}
  {recorded : Recorded}

/-- Left inside of its first inner cursor, a nested iteration has the rest of that cursor ahead, and
what comes after it. -/
theorem exists_leftAt_of_inner (hu : D.issued u) {v : α} {more : List α}
    (hahead : D.ahead u = v :: more) {rows : List (β × Continuation)} {e : Ending}
    (hinner : (I v).Accounts true (innerStart recorded check.isSome (check.map (· v))) rows e)
    {e' : Ending} {vs : List β} {t : Continuation}
    (hleft : Interrupted (OuterValue.place ⟨u, check.map (· v)⟩ rows) e' vs t)
    (hend : ∀ r, r.isLimit = true → e' = .stopped r t →
      ∃ s, t = OuterValue.position ⟨u, check.map (· v)⟩ s ∧ e = .stopped r s) :
    ∃ place s, t = OuterValue.position place s ∧ LeftAt D I check place s ∧
      nestedAhead D I check recorded u =
        vs ++ nestedAhead D I check (some (place.check, s)) place.prior := by
  obtain ⟨s, ht, hleft⟩ := OuterValue.interrupted_place hleft hend
  obtain ⟨hs, hrest⟩ := hinner.left hleft
  refine ⟨_, s, ht, .inside hu hahead hs, ?_⟩
  rw [nestedAhead_inside hahead, nestedAhead_of_cons hahead, hrest, List.append_assoc]

theorem Drains.exists_leftAt {rows : List (α × Continuation)} {e : Ending}
    (hD : D.Accounts true u rows e) (hu : D.issued u) {xs : List (Opening α)}
    (hxs : xs = openings check recorded u rows ∨
      xs <+: openings check recorded u rows ∧ ∃ err, e = .failed err) {o : Outcome β}
    (h : Drains (fun v s o => (I v).Accounts true s o.1 o.2) xs (e.settled OuterValue.atLimit) o)
    (hfirst : recorded = none ∨ (rows = [] → ∀ r t, e = .stopped r t → r.isLimit = false))
    {vs : List β} {t : Continuation} (hleft : Interrupted o.1 o.2 vs t) :
    ∃ place s, t = OuterValue.position place s ∧ LeftAt D I check place s ∧
      nestedAhead D I check recorded u =
        vs ++ nestedAhead D I check (some (place.check, s)) place.prior := by
  induction rows generalizing u recorded xs o vs with
  | nil =>
    obtain rfl : xs = [] := by
      rcases hxs with hxs | ⟨hxs, -⟩
      · exact hxs
      · exact List.prefix_nil.1 hxs
    cases h
    cases hleft with
    | row rows_eq => simp at rows_eq
    | limit ending isLimit =>
      obtain ⟨t₀, rfl, rfl⟩ := Ending.eq_of_settled ending isLimit
      rw [Merge.Course.Accounts, if_pos isLimit] at hD
      obtain ⟨-, ht₀, hahead⟩ := hD
      obtain rfl : recorded = none := by
        refine hfirst.resolve_right fun hno => ?_
        rw [hno rfl _ t₀ rfl] at isLimit
        cases isLimit
      refine ⟨⟨t₀, none⟩, .start, rfl, .between ht₀, ?_⟩
      rw [nestedAhead_of_innerStart (innerStart_none _),
        nestedAhead_of_innerStart (innerStart_between _), hahead]
      rfl
  | cons x rows ih =>
    obtain ⟨v, t₁⟩ := x
    obtain ⟨ht₁, hahead, hD⟩ := hD
    rw [openings] at hxs
    cases xs with
    | nil =>
      obtain ⟨-, err, rfl⟩ := hxs.resolve_left (by simp)
      cases h
      cases hleft with
      | row rows_eq => simp at rows_eq
      | limit ending => cases ending
    | cons x xs =>
      rw [List.cons.injEq, List.cons_prefix_cons, and_assoc, ← and_or_left] at hxs
      obtain ⟨rfl, hxs⟩ := hxs
      cases h with
      | limit inner isLimit =>
        refine exists_leftAt_of_inner hu hahead inner hleft fun r _ hend => ?_
        cases hend
        exact ⟨_, rfl, rfl⟩
      | failed inner => exact exists_leftAt_of_inner hu hahead inner hleft (by simp)
      | next inner dry rest =>
        rcases Merge.Interrupted.of_append hleft with hrow | ⟨vs', rfl, hmore⟩
        · exact exists_leftAt_of_inner hu hahead inner (hrow (.failed .unusable)) (by simp)
        · obtain ⟨place, s, ht, hat, hrest⟩ := ih hD ht₁ hxs rest (.inl rfl) hmore
          rw [nestedAhead_of_innerStart (innerStart_none _)] at hrest
          refine ⟨place, s, ht, hat, ?_⟩
          rw [nestedAhead_of_cons hahead, inner.dry dry, hrest, OuterValue.place, List.map_map,
            List.append_assoc]
          rfl

/-- Without limits, a nested iteration hands out all that is ahead. -/
theorem Drains.eq_nestedAhead {rows : List (α × Continuation)} {e : Ending}
    (hD : D.Accounts false u rows e) {o : Outcome β}
    (h : Drains (fun v s o => (I v).Accounts false s o.1 o.2) (openings check recorded u rows)
      (e.settled OuterValue.atLimit) o) :
    o.1.map Prod.fst = nestedAhead D I check recorded u ∧
      o.2 = .stopped .sourceExhausted .done := by
  obtain ⟨r, t, rfl, hr⟩ := hD.exhausted
  induction rows generalizing u recorded o with
  | nil =>
    have hahead := hD.dry hr
    cases h
    rw [nestedAhead, hahead, Ending.settled, if_neg (Bool.eq_false_iff.1 hr)]
    exact ⟨rfl, rfl⟩
  | cons x rows ih =>
    obtain ⟨v, t₁⟩ := x
    obtain ⟨-, hahead, hD⟩ := hD
    rw [openings] at h
    cases h with
    | limit inner isLimit =>
      obtain ⟨r', t', hend, hr'⟩ := inner.exhausted
      cases hend
      rw [hr'] at isLimit
      cases isLimit
    | failed inner =>
      obtain ⟨r', t', hend, -⟩ := inner.exhausted
      cases hend
    | next inner dry rest =>
      obtain ⟨hrows, hend⟩ := ih hD rest
      rw [nestedAhead_of_innerStart (innerStart_none _)] at hrows
      refine ⟨?_, hend⟩
      rw [nestedAhead_of_cons hahead, inner.dry dry, ← hrows, OuterValue.place, List.map_append,
        List.map_map]
      rfl

theorem issued_of_mem_openings {limited : Bool} {rows : List (α × Continuation)} {e : Ending}
    (hstart : ∀ v, (I v).issued .start)
    (hfirst : ∀ v vs, D.ahead u = v :: vs →
      (I v).issued (innerStart recorded check.isSome (check.map (· v))))
    (hD : D.Accounts limited u rows e) :
    ∀ x ∈ openings check recorded u rows, (I x.value).issued x.start := by
  induction rows generalizing u recorded with
  | nil => exact nofun
  | cons x rows ih =>
    obtain ⟨v, t₁⟩ := x
    obtain ⟨-, hahead, hD⟩ := hD
    rw [openings]
    exact List.forall_mem_cons.2 ⟨hfirst v _ hahead, ih (fun v _ _ => hstart v) hD⟩

end Left

/-! ### The law -/

/-- The outer cursor and the inner cursors of a nested iteration can be opened at all continuations
of their courses, and keep to them from a world on. -/
structure Nesting.KeepsTo (n : Nesting α β)
    (openOuter : Continuation → Except CursorError (Cursor α)) (S : World → World → Prop)
    (w : World) (D : Course α) (I : α → Course β) (limited : Bool) : Prop where
  passage : World.Passage S
  outer {t} : D.issued t → ∃ source, openOuter t = .ok source ∧
    source.Promises S w fun o => D.Accounts limited t o.1 o.2
  inner {v s} : (I v).issued s →
    (n.openInner v s).Gives S w (OpensAs S w fun o => (I v).Accounts limited s o.1 o.2)

/-- Opened at a continuation, the nested iteration returns some rows and ends because there are no
more. -/
def Nesting.Returns (n : Nesting α β) (openOuter : Continuation → Except CursorError (Cursor α))
    (c : Continuation) (w : World) (l : List β) : Prop :=
  ∃ cur, n.openAt openOuter c = .ok cur ∧
    ((Handle.new cur).collect w).2 = .ok (l, .sourceExhausted, .done)

/-- At whatever depth and in whichever world, a nested iteration of some courses that nothing limits
returns some rows if it is opened at a continuation. -/
def ReturnsFrom (D : Course α) (I : α → Course β) (check : Option (α → Bytes)) (c : Continuation)
    (l : List β) : Prop :=
  ∀ (n : Nesting α β) (openOuter : Continuation → Except CursorError (Cursor α))
    (S : World → World → Prop) (w : World), n.check = check →
      n.KeepsTo openOuter S w D I false → n.Returns openOuter c w l

section Law

variable {D : Course α} {I : α → Course β} {check : Option (α → Bytes)} {c u : Continuation}
  {recorded : Recorded} (hstart : ∀ v, (I v).issued .start)
  (hc : Nesting.resume c = .ok (u, recorded)) (hu : D.issued u)
  (hfirst : ∀ v vs, D.ahead u = v :: vs →
    (I v).issued (innerStart recorded check.isSome (check.map (· v))))

include hstart hc hu hfirst

theorem exists_drains {n : Nesting α β} (hn : n.check = check)
    {openOuter : Continuation → Except CursorError (Cursor α)} {limited : Bool}
    (h : n.KeepsTo openOuter S w D I limited) (hdone : u ≠ .done) {P : Outcome α → Prop}
    (hP : ∀ source, openOuter u = .ok source → source.Promises S w P) :
    ∃ cur, n.openAt openOuter c = .ok cur ∧ ∃ o, P o ∧ D.Accounts limited u o.1 o.2 ∧
      Drains (fun v s o => (I v).Accounts limited s o.1 o.2)
        (kept (max 1 n.depth) (openings check recorded u o.1) o.2)
        (o.2.settled OuterValue.atLimit) (cur.run w).2 := by
  subst hn
  obtain ⟨source, hopen, hsource⟩ := h.outer hu
  obtain ⟨cur, hcur, o, ⟨ho, hP⟩, hdrains⟩ := exists_run_openAt h.passage
    (Q := fun v s o => (I v).Accounts limited s o.1 o.2) hc hdone hopen
    (hsource.and (hP source hopen)) fun o ho x hx =>
      h.inner (issued_of_mem_openings hstart hfirst ho.1 x hx)
  exact ⟨cur, hcur, o, hP, ho, hdrains⟩

omit hstart hfirst in
theorem openAt_done {n : Nesting α β} {openOuter : Continuation → Except CursorError (Cursor α)}
    {limited : Bool} (h : n.KeepsTo openOuter S w D I limited) (hdone : u = .done) :
    n.openAt openOuter c = .ok exhausted := by
  subst hdone
  obtain ⟨source, hopen, -⟩ := h.outer hu
  rw [Nesting.openAt, hc]
  show (openOuter .done >>= _) = _
  rw [hopen]
  rfl

theorem returnsFrom_nestedAhead : ReturnsFrom D I check c (nestedAhead D I check recorded u) := by
  intro n openOuter S w hn h
  by_cases hdone : u = .done
  · refine ⟨_, openAt_done hc hu h hdone, ?_⟩
    rw [nestedAhead, hdone, D.ahead_done]
    rfl
  · obtain ⟨cur, hcur, o, -, hD, hdrains⟩ := exists_drains hstart hc hu hfirst hn h hdone
      (P := fun _ => True) fun source hopen => by
        obtain ⟨source', hopen', hsource⟩ := h.outer hu
        cases hopen.symm.trans hopen'
        exact hsource.mono fun _ _ => trivial
    refine ⟨cur, hcur, ?_⟩
    obtain ⟨r, t, hend, -⟩ := hD.exhausted
    have hkept := (kept_eq_or (max 1 n.depth) (openings check recorded u o.1) o.2).resolve_right
      (by simp [hend])
    rw [hkept] at hdrains
    obtain ⟨hrows, hending⟩ := hdrains.eq_nestedAhead hD
    rcases hrun : cur.run w with ⟨w', rows, e⟩
    rw [hrun] at hrows hending
    obtain rfl := hending
    rw [collect_new hrun, ← hrows]

/-- Wherever a nested iteration is left, what it has handed out comes before what is ahead there. -/
theorem exists_leftAt_of_interrupted {n : Nesting α β} (hn : n.check = check)
    {openOuter : Continuation → Except CursorError (Cursor α)}
    (h : n.KeepsTo openOuter S w D I true) (hdone : u ≠ .done)
    (hpast : recorded = none ∨ ∀ source, openOuter u = .ok source → source.Promises S w fun o =>
      o.1 = [] → ∀ r t, o.2 = .stopped r t → r.isLimit = false)
    {cur : Cursor β} (hcur : n.openAt openOuter c = .ok cur) {vs : List β} {t : Continuation}
    (hleft : Interrupted (cur.run w).2.1 (cur.run w).2.2 vs t) :
    ∃ place s, t = OuterValue.position place s ∧ LeftAt D I check place s ∧
      nestedAhead D I check recorded u =
        vs ++ nestedAhead D I check (some (place.check, s)) place.prior := by
  obtain ⟨source, hopen, hsource⟩ := h.outer hu
  have hP : ∀ source, openOuter u = .ok source → source.Promises S w fun o =>
      recorded = none ∨ (o.1 = [] → ∀ r t, o.2 = .stopped r t → r.isLimit = false) := by
    intro source' hopen'
    cases hopen.symm.trans hopen'
    rcases hpast with hnone | hpast
    · exact hsource.mono fun _ _ => .inl hnone
    · exact (hpast source hopen).mono fun _ ho => .inr ho
  obtain ⟨cur', hcur', o, ho, hD, hdrains⟩ := exists_drains hstart hc hu hfirst hn h hdone hP
  cases hcur.symm.trans hcur'
  exact hdrains.exists_leftAt hD hu (kept_eq_or _ _ _) ho hleft

end Law

/-- If the first outer value that is found is told apart from the recorded one, its inner cursor
starts from the beginning. -/
theorem returnsFrom_of_changed {D : Course α} {I : α → Course β} {check : Option (α → Bytes)}
    (hstart : ∀ v, (I v).issued .start) {c u s : Continuation} {known : Option Bytes}
    (hc : Nesting.resume c = .ok (u, some (known, s))) (hu : D.issued u) {v : α} {rest : List α}
    (hahead : D.ahead u = v :: rest) (hsome : check.isSome = true)
    (hne : check.map (· v) ≠ known) :
    ReturnsFrom D I check c ((I v).ahead .start ++ rest.flatMap fun v => (I v).ahead .start) := by
  have hbeginning : innerStart (some (known, s)) check.isSome (check.map (· v)) = .start := by
    rw [innerStart, hsome]
    exact if_neg (by simpa using hne.symm)
  have hreturns := returnsFrom_nestedAhead hstart hc hu fun v' vs' hv' => by
    obtain ⟨rfl, -⟩ := List.cons.inj (hahead.symm.trans hv')
    rw [hbeginning]
    exact hstart v
  rwa [nestedAhead_of_cons hahead, hbeginning] at hreturns

theorem LeftAt.resume {D : Course α} {I : α → Course β} {check : Option (α → Bytes)}
    (hcheck : ∀ g ∈ check, ∀ v, (g v).length < 2 ^ 64) (hstart : ∀ v, (I v).issued .start)
    {o : OuterValue} {s : Continuation} (h : LeftAt D I check o s) :
    Nesting.resume (o.position s) = .ok (o.prior, some (o.check, s)) ∧ D.issued o.prior ∧
      ∀ v vs, D.ahead o.prior = v :: vs →
        (I v).issued (innerStart (some (o.check, s)) check.isSome (check.map (· v))) := by
  cases h with
  | @inside prior v vs s issued ahead inner =>
    refine ⟨Nesting.resume_position (D.fits issued) (fun b hb => ?_) ((I v).fits inner), issued,
      fun v' vs' hahead => ?_⟩
    · obtain ⟨g, hg, rfl⟩ := Option.mem_map.1 hb
      exact hcheck g hg v
    · obtain ⟨rfl, -⟩ := List.cons.inj (ahead.symm.trans hahead)
      rw [innerStart_self]
      exact inner
  | between issued =>
    refine ⟨Nesting.resume_position (D.fits issued) nofun (by decide), issued, fun v vs _ => ?_⟩
    rw [innerStart_between]
    exact hstart v

/-- An outer cursor that stops for a limit before its first value makes the iteration stop between
two inner cursors, whatever was recorded. -/
theorem run_rows_of_limit {n : Nesting α β} {recorded : Recorded} {outer t : Continuation}
    {source : Cursor α} {r : StopReason} (hr : r.isLimit = true)
    (h : (source.run w).2 = ([], .stopped r t)) :
    ((n.rows recorded outer [] source).run w).2 = ([], .stopped r (OuterValue.atLimit t)) := by
  induction source generalizing w with
  | row v t' rest => cases h
  | stop r' t' =>
    cases h
    rw [Nesting.rows]
    show ((Nesting.ending r t : Cursor β).run w).2 = _
    rw [Nesting.ending, if_pos hr]
    rfl
  | fail e => cases h
  | consult k ih => exact ih w h
  | commit w' c ih => exact ih h
  | pause wait rest ih => exact ih () h

section Law

variable {D : Course α} {I : α → Course β} {check : Option (α → Bytes)} {c u : Continuation}
  {recorded : Recorded} (hstart : ∀ v, (I v).issued .start)
  (hc : Nesting.resume c = .ok (u, recorded)) (hu : D.issued u)
  (hfirst : ∀ v vs, D.ahead u = v :: vs →
    (I v).issued (innerStart recorded check.isSome (check.map (· v))))

include hstart hc hu hfirst

/-- A nested iteration that is left at the continuation of a row, or of a limit of an inner cursor
or of the outer one, and opened there again without limits, at whatever depth, returns the rest of
what it returns without being left.  If the first outer value that is found then is told apart from the
recorded one by its check value, its inner cursor starts from the beginning, and so do the others.

There is one exception.  If something is recorded and the outer cursor stops for a limit before its
first value, then what was recorded is lost: the inner cursor of the next outer value starts from
the beginning though some of its rows were returned before. -/
theorem nested_resumes (hcheck : ∀ g ∈ check, ∀ v, (g v).length < 2 ^ 64) {n : Nesting α β}
    (hn : n.check = check) {openOuter : Continuation → Except CursorError (Cursor α)}
    (h : n.KeepsTo openOuter S w D I true) :
    ∃ cur, n.openAt openOuter c = .ok cur ∧
      ((recorded = none ∨ ∀ source, openOuter u = .ok source → source.Promises S w fun o =>
          o.1 = [] → ∀ r t, o.2 = .stopped r t → r.isLimit = false) →
        ∀ vs t, Interrupted (cur.run w).2.1 (cur.run w).2.2 vs t →
          ∃ l prior known s, ReturnsFrom D I check c (vs ++ l) ∧ ReturnsFrom D I check t l ∧
            Nesting.resume t = .ok (prior, some (known, s)) ∧
            ∀ (D' : Course α) (v : α) (rest : List α), D'.issued prior →
              D'.ahead prior = v :: rest → check.isSome = true → check.map (· v) ≠ known →
              ReturnsFrom D' I check t
                ((I v).ahead .start ++ rest.flatMap fun v => (I v).ahead .start)) ∧
      ∀ source r t, openOuter u = .ok source → u ≠ .done →
        (source.run w).2 = ([], .stopped r t) → r.isLimit = true →
        (cur.run w).2 = ([], .stopped r (OuterValue.atLimit t)) ∧
          ReturnsFrom D I check (OuterValue.atLimit t)
            ((D.ahead u).flatMap fun v => (I v).ahead .start) := by
  by_cases hdone : u = .done
  · refine ⟨_, openAt_done hc hu h hdone, fun _ vs t hleft => ?_, fun _ _ _ _ hu => absurd hdone hu⟩
    cases hleft with
    | row rows_eq => simp [exhausted, run] at rows_eq
    | limit ending isLimit =>
      cases ending
      cases isLimit
  obtain ⟨source, hopen, hsource⟩ := h.outer hu
  have heq := openAt_eq_rows (n := n) hc hdone hopen
  refine ⟨_, heq, fun hpast vs t hleft => ?_, fun source' r t hopen' _ hrun hr => ?_⟩
  · obtain ⟨place, s, rfl, hat, hahead⟩ :=
      exists_leftAt_of_interrupted hstart hc hu hfirst hn h hdone hpast heq hleft
    obtain ⟨hresume, hprior, hissued⟩ := hat.resume hcheck hstart
    have hwhole := returnsFrom_nestedAhead hstart hc hu hfirst
    rw [hahead] at hwhole
    refine ⟨_, place.prior, place.check, s, hwhole,
      returnsFrom_nestedAhead hstart hresume hprior hissued, hresume, ?_⟩
    intro D' v rest hprior' hahead' hsome hne
    exact returnsFrom_of_changed hstart hresume hprior' hahead' hsome hne
  · cases hopen.symm.trans hopen'
    have hD := hsource.run h.passage
    rw [hrun, Merge.Course.Accounts, if_pos hr] at hD
    obtain ⟨-, ht, hahead⟩ := hD
    obtain ⟨hresume, hprior, hissued⟩ := (LeftAt.between ht).resume (I := I) hcheck hstart
    refine ⟨run_rows_of_limit hr hrun, ?_⟩
    have hrest := returnsFrom_nestedAhead hstart hresume hprior hissued
    rw [nestedAhead_of_innerStart (innerStart_between _)] at hrest
    rwa [← hahead]

end Law

/-! ### Numbers for numbers -/

/-- A cursor that pays no heed to the world keeps to its course. -/
theorem promises_of_hands {D : Course α} {limited : Bool} {cur : Cursor α} {l : List α}
    (h : Hands D.Marks limited cur l) {t : Continuation} (ht : D.ahead t = l) (w : World) :
    cur.Promises (fun _ _ => True) w fun o => D.Accounts limited t o.1 o.2 := by
  induction h generalizing t w with
  | row mark _ ih =>
    obtain ⟨issued, ahead⟩ := mark
    intro w' _
    refine (ih ahead w').mono fun o ho => ⟨issued, ?_, ho⟩
    rw [ht, ahead]
  | stop dry under mark =>
    show D.Accounts limited t [] _
    rw [Merge.Course.Accounts]
    split
    · exact ⟨under (by assumption), mark.1, mark.2.trans ht.symm⟩
    · exact ht.trans (dry (Bool.eq_false_iff.2 (by assumption)))
  | consult _ ih => exact ih w ht w
  | commit _ ih => exact ⟨trivial, ih ht _⟩
  | pause _ _ ih => exact fun w' _ => ih ht w'

/-- Two numbers for each number, opened in some way. -/
def sampleIteration (depth : Nat)
    (openList : List Nat → Continuation → Except CursorError (Cursor Nat)) : Nesting Nat Nat where
  openInner i c := .compute (3 - i) fun _ => openList [10 * i, 10 * i + 1] c
  check := some fun i => [UInt8.ofNat i]
  depth := depth

/-- Lists are opened in some way that keeps to their courses. -/
def KeepsLists (limited : Bool)
    (openList : List Nat → Continuation → Except CursorError (Cursor Nat)) : Prop :=
  ∀ l : List Nat, l.length < 2 ^ 64 → ∀ t, (listCourse l).issued t → ∃ cur, openList l t = .ok cur ∧
    ∀ w, cur.Promises (fun _ _ => True) w fun o => (listCourse l).Accounts limited t o.1 o.2

theorem promises_exhausted (D : Course α) (limited : Bool) (w : World) :
    (exhausted : Cursor α).Promises S w fun o => D.Accounts limited .done o.1 o.2 := D.ahead_done

theorem keepsLists_list (limited : Bool) : KeepsLists limited list := by
  intro l hl t ht
  by_cases hdone : t = .done
  · subst hdone
    exact ⟨_, rfl, promises_exhausted (listCourse l) limited⟩
  · obtain ⟨cur, hcur, hhands⟩ := hands_list hl ht hdone
    exact ⟨cur, hcur, promises_of_hands hhands rfl⟩

theorem keepsLists_singly : KeepsLists true singly := by
  intro l hl t ht
  by_cases hdone : t = .done
  · subst hdone
    exact ⟨_, rfl, promises_exhausted (listCourse l) true⟩
  · obtain ⟨cur, hcur, hhands⟩ := hands_limitedList
      (p := { ScanProperties.forward with limit := some 1 }) hl rfl ht hdone
    exact ⟨cur, hcur, promises_of_hands hhands rfl⟩

theorem keepsTo_sample {limited : Bool}
    {openList : List Nat → Continuation → Except CursorError (Cursor Nat)}
    (h : KeepsLists limited openList) (depth : Nat) :
    (sampleIteration depth openList).KeepsTo (list [1, 2]) (fun _ _ => True) .empty
      (listCourse [1, 2]) (fun i => listCourse [10 * i, 10 * i + 1]) limited where
  passage := World.passage_any
  outer ht := by
    obtain ⟨cur, hcur, hpromises⟩ := keepsLists_list limited [1, 2] (by decide) _ ht
    exact ⟨cur, hcur, hpromises .empty⟩
  inner {v s} hs := by
    obtain ⟨cur, hcur, hpromises⟩ := h [10 * v, 10 * v + 1] (show 2 < 2 ^ 64 by decide) s hs
    intro w' _
    show OpensAs _ _ _ (openList [10 * v, 10 * v + 1] s)
    rw [hcur]
    exact fun w'' _ => hpromises w''

theorem nested_resumes_sample :
    ∃ cur t l, (sampleIteration 2 singly).openAt (list [1, 2]) .start = .ok cur ∧
      (cur.run .empty).2.2 = .stopped .returnLimit t ∧
      (sampleIteration 1 list).Returns (list [1, 2]) .start .empty
        ((cur.run .empty).2.1.map Prod.fst ++ l) ∧
      (sampleIteration 1 list).Returns (list [1, 2]) t .empty l := by
  obtain ⟨cur, hcur, hleft, -⟩ := nested_resumes (D := listCourse [1, 2])
    (I := fun i => listCourse [10 * i, 10 * i + 1]) (fun _ => .inl rfl) (c := .start) rfl (.inl rfl)
    (fun _ _ _ => .inl rfl) (fun g hg v => by cases hg; show 1 < 2 ^ 64; decide)
    (n := sampleIteration 2 singly) rfl (keepsTo_sample keepsLists_singly 2)
  have hend : (cur.run .empty).2.2 = .stopped .returnLimit
      (OuterValue.position ⟨.start, some [1]⟩ (ListPosition.mk 1).toContinuation) := by
    obtain rfl := Except.ok.inj hcur
    cbv
  obtain ⟨l, -, -, -, hwhole, hrest, -⟩ := hleft (.inl rfl) _ _ (.limit hend rfl)
  have hkeeps := keepsTo_sample (keepsLists_list false) 1
  exact ⟨cur, _, l, hcur, hend, hwhole _ _ _ _ rfl hkeeps, hrest _ _ _ _ rfl hkeeps⟩

/-- The even ones of two numbers. -/
def sampleEvens (c : Continuation) : Except CursorError (Cursor Nat) :=
  (list [1, 2] c).map (filter (· % 2 = 0))

/-- The even ones of two numbers, of which one is looked at. -/
def sampleFirstEven (c : Continuation) : Except CursorError (Cursor Nat) :=
  (singly [1, 2] c).map (filter (· % 2 = 0))

/-- Left inside of the only inner cursor and opened again with a limit that stops the outer cursor
before its only value, an iteration goes on with a row that was returned before. -/
theorem returns_row_again :
    (sampleIteration 1 list).Returns sampleEvens
        (OuterValue.position ⟨.start, some [2]⟩ (ListPosition.mk 1).toContinuation) .empty [21] ∧
      (∃ cur, (sampleIteration 1 list).openAt sampleFirstEven
          (OuterValue.position ⟨.start, some [2]⟩ (ListPosition.mk 1).toContinuation) = .ok cur ∧
        (cur.run .empty).2 = ([], .stopped .returnLimit
          (OuterValue.atLimit (ListPosition.mk 1).toContinuation))) ∧
      (sampleIteration 1 list).Returns sampleEvens
        (OuterValue.atLimit (ListPosition.mk 1).toContinuation) .empty [20, 21] := by
  refine ⟨⟨_, rfl, ?_⟩, ⟨_, rfl, ?_⟩, ⟨_, rfl, ?_⟩⟩ <;> cbv

end Cursor

end ResumableQuery
