import ResumableQuery.Proofs.Cursor.Resumption

/-!
# Pages of a source

A source that never stops early is read page by page: each page is opened under the same request on
the continuation of the page before it.  The first page leaves out as many rows as are to be
skipped, and every page takes the rows that follow until it is full (`page_spec`).  It is full at
the row limit, or with the row after which the time is up, be it the first one
(`ScanProperties.pageSize`).

So the pages cut what is left after skipping into runs of one length (`pages_eq`).  A page that
comes out full ends for its limit even where no row follows; the page after it is empty then.
-/

namespace ResumableQuery

open Cursor (reachedLimit)

namespace ScanProperties

/-- How many rows a page has time for, if there is a bound: one even where the time is up at
once. -/
def rowsInTime (p : ScanProperties) : Option Nat := (p.timeLimit.bind (·.rows?)).map (max 1)

/-- How many rows make a page full, if any number does. -/
def pageSize (p : ScanProperties) : Option Nat := Option.merge min p.limit p.rowsInTime

/-- The rows that a page takes from the front of those that are there. -/
def fill (p : ScanProperties) (rows : List α) : List α :=
  match p.pageSize with
  | none => rows
  | some size => rows.take size

/-- The reason for which a page with some number of rows ends. -/
def endOf (p : ScanProperties) (count : Nat) : StopReason :=
  (reachedLimit p count).getD .sourceExhausted

variable {p : ScanProperties} {rows : List α} {size n : Nat}

theorem fill_of_none (h : p.pageSize = none) : p.fill rows = rows := by
  rw [fill, h]

theorem fill_of_some (h : p.pageSize = some size) : p.fill rows = rows.take size := by
  rw [fill, h]

theorem drop_length_fill_of_some (h : p.pageSize = some size) :
    rows.drop (p.fill rows).length = rows.drop size := by
  rw [fill_of_some h, List.length_take]
  rcases Nat.le_total size rows.length with hle | hle
  · rw [Nat.min_eq_left hle]
  · rw [Nat.min_eq_right hle, List.drop_length, List.drop_of_length_le hle]

/-- A page ends for the row limit if that is reached, and otherwise once it has the rows for which
there was time. -/
theorem reachedLimit_eq (p : ScanProperties) (n : Nat) :
    reachedLimit p n =
      if p.limit.any (· ≤ n) then some .returnLimit
      else if p.rowsInTime.any (· ≤ n) then some .timeLimit
      else none := by
  have time : (n > 0 && p.timeLimit.any (·.hasPassed n)) = p.rowsInTime.any (· ≤ n) := by
    rw [rowsInTime]
    cases p.timeLimit with
    | none => simp
    | some t =>
      rw [Option.any_some, TimeLimit.hasPassed, Option.bind_some]
      cases t.rows? with
      | none => simp
      | some rows => simp [Nat.succ_le_iff]
  rw [reachedLimit, time]

/-- A page may go on exactly as long as it is not full. -/
theorem reachedLimit_eq_none_iff :
    reachedLimit p n = none ↔ ∀ size ∈ p.pageSize, n < size := by
  have below (bound : Option Nat) : bound.any (· ≤ n) = false ↔ ∀ size ∈ bound, n < size := by
    cases bound <;> simp
  have both : (∀ size ∈ p.pageSize, n < size) ↔
      (∀ size ∈ p.limit, n < size) ∧ ∀ rows ∈ p.rowsInTime, n < rows := by
    rw [pageSize]
    cases p.limit <;> cases p.rowsInTime <;> simp [Option.merge]
  rw [reachedLimit_eq, both, ← below, ← below]
  cases p.limit.any (· ≤ n) <;> cases p.rowsInTime.any (· ≤ n) <;> simp

theorem endOf_eq_sourceExhausted_iff :
    p.endOf n = .sourceExhausted ↔ ∀ size ∈ p.pageSize, n < size := by
  rw [← reachedLimit_eq_none_iff, endOf]
  cases h : reachedLimit p n with
  | none => exact iff_of_true rfl rfl
  | some r =>
    refine iff_of_false (fun hr => ?_) (Option.some_ne_none r)
    have isLimit := Cursor.isLimit_of_reachedLimit h
    rw [show r = .sourceExhausted from hr] at isLimit
    cases isLimit

/-- Where there is time for all rows, a page ends for the row limit if it is full. -/
theorem endOf_of_untimed (htime : p.rowsInTime = none) (h : p.limit = some size)
    (hn : n ≤ size) : p.endOf n = if n = size then .returnLimit else .sourceExhausted := by
  rw [endOf, reachedLimit_eq, h, htime, Option.any_some]
  rcases Nat.lt_or_eq_of_le hn with hlt | rfl
  · simp [hlt.ne, Nat.not_le.2 hlt]
  · simp

/-- A page of one row, for which alone there is time, ends for the row limit if that is one, and
otherwise for the limit on time. -/
theorem endOf_one (htime : p.rowsInTime = some 1) (hp : p.limit ≠ some 0) :
    p.endOf 1 = if p.limit = some 1 then .returnLimit else .timeLimit := by
  rw [endOf, reachedLimit_eq, htime]
  cases h : p.limit with
  | none => rfl
  | some m =>
    have hm : m ≠ 0 := fun hm => hp (hm ▸ h)
    by_cases h1 : m = 1
    · simp [h1]
    · simp [h1, show ¬m ≤ 1 by omega]

theorem pageSize_of_untimed (htime : p.rowsInTime = none) : p.pageSize = p.limit := by
  rw [pageSize, htime, Option.merge_none_right]

/-- Where there is time for one row only, a page is full with it. -/
theorem pageSize_one (htime : p.rowsInTime = some 1) (hp : p.limit ≠ some 0) :
    p.pageSize = some 1 := by
  rw [pageSize, htime]
  cases h : p.limit with
  | none => rfl
  | some m =>
    have hm : m ≠ 0 := fun hm => hp (hm ▸ h)
    exact congrArg some (Nat.min_eq_right (Nat.one_le_iff_ne_zero.2 hm))

/-- What comes before a page is full, and is all there is unless it fills the page, is what the page
takes. -/
theorem fill_append {rest : List α} (before : ∀ n < rows.length, reachedLimit p n = none)
    (dry : reachedLimit p rows.length = none → rest = []) : p.fill (rows ++ rest) = rows := by
  rw [reachedLimit_eq_none_iff] at dry
  cases h : p.pageSize with
  | none =>
    rw [h] at dry
    rw [fill_of_none h, dry nofun, List.append_nil]
  | some size =>
    rw [h] at dry
    rw [fill_of_some h]
    rcases Nat.lt_trichotomy rows.length size with hlt | rfl | hlt
    · rw [dry fun _ hs => Option.some.inj hs ▸ hlt, List.append_nil,
        List.take_of_length_le hlt.le]
    · exact List.take_left
    · exact absurd (reachedLimit_eq_none_iff.1 (before size hlt) size h) (Nat.lt_irrefl size)

/-- The rows of page after page, taken from the front of those that are there. -/
def chunks (p : ScanProperties) : Nat → List α → List (List α)
  | 0, _ => []
  | n + 1, rows => p.fill rows :: chunks p n (rows.drop (p.fill rows).length)

theorem length_chunks (p : ScanProperties) (n : Nat) (rows : List α) :
    (p.chunks n rows).length = n := by
  induction n generalizing rows with
  | zero => rfl
  | succ n ih => rw [chunks, List.length_cons, ih]

/-- Pages of a size hold as many rows each. -/
theorem getElem?_chunks_of_some (h : p.pageSize = some size) {j : Nat} (hj : j < n) :
    (p.chunks n rows)[j]? = some ((rows.drop (j * size)).take size) := by
  induction n generalizing rows j with
  | zero => exact absurd hj (Nat.not_lt_zero j)
  | succ n ih =>
    rw [chunks, drop_length_fill_of_some h]
    cases j with
    | zero => rw [List.getElem?_cons_zero, fill_of_some h, Nat.zero_mul, List.drop_zero]
    | succ j =>
      rw [List.getElem?_cons_succ, ih (Nat.lt_of_succ_lt_succ hj), List.drop_drop, Nat.succ_mul,
        Nat.add_comm size]

/-- Without a size, the first page holds all rows. -/
theorem getElem?_chunks_of_none (h : p.pageSize = none) {j : Nat} (hj : j < n) :
    (p.chunks n rows)[j]? = some (if j = 0 then rows else []) := by
  induction n generalizing rows j with
  | zero => exact absurd hj (Nat.not_lt_zero j)
  | succ n ih =>
    rw [chunks, fill_of_none h, List.drop_length]
    cases j with
    | zero => rfl
    | succ j =>
      rw [List.getElem?_cons_succ, ih (Nat.lt_of_succ_lt_succ hj), ite_self,
        if_neg (Nat.succ_ne_zero j)]

theorem flatten_chunks_of_some (h : p.pageSize = some size) :
    (p.chunks n rows).flatten = rows.take (n * size) := by
  induction n generalizing rows with
  | zero => rw [Nat.zero_mul, List.take_zero, chunks, List.flatten_nil]
  | succ n ih =>
    rw [chunks, List.flatten_cons, drop_length_fill_of_some h, ih, fill_of_some h, ← List.take_add,
      Nat.succ_mul, Nat.add_comm size]

theorem flatten_chunks_nil (p : ScanProperties) (n : Nat) :
    (p.chunks n ([] : List α)).flatten = [] := by
  have fill_nil : p.fill ([] : List α) = [] := by
    unfold fill
    split
    · rfl
    · exact List.take_nil
  induction n with
  | zero => rfl
  | succ n ih => rw [chunks, fill_nil, List.drop_nil, List.flatten_cons, ih, List.append_nil]

theorem flatten_chunks_of_none (h : p.pageSize = none) (hn : 0 < n) :
    (p.chunks n rows).flatten = rows := by
  obtain ⟨n, rfl⟩ := Nat.exists_eq_succ_of_ne_zero hn.ne'
  rw [chunks, fill_of_none h, List.drop_length, List.flatten_cons, flatten_chunks_nil,
    List.append_nil]

/-- Pages hold rows from the front, each once and in order, and all of them as soon as a page has
room left. -/
theorem flatten_chunks (p : ScanProperties) (n : Nat) (rows : List α) :
    (p.chunks n rows).flatten <+: rows ∧
      ∀ page ∈ p.chunks n rows, (∀ size ∈ p.pageSize, page.length < size) →
        (p.chunks n rows).flatten = rows := by
  cases h : p.pageSize with
  | none =>
    cases n with
    | zero => exact ⟨List.nil_prefix, nofun⟩
    | succ n =>
      rw [flatten_chunks_of_none h n.succ_pos]
      exact ⟨List.prefix_rfl, fun _ _ _ => rfl⟩
  | some size =>
    rw [flatten_chunks_of_some h]
    refine ⟨List.take_prefix _ _, fun page hpage hroom => List.take_of_length_le ?_⟩
    obtain ⟨j, hj, rfl⟩ := List.getElem_of_mem hpage
    have hroom := hroom size rfl
    rw [length_chunks] at hj
    rw [← Option.some.inj ((getElem?_chunks_of_some h hj).symm.trans (List.getElem?_eq_getElem _)),
      List.length_take, List.length_drop] at hroom
    have hle : (j + 1) * size ≤ n * size := Nat.mul_le_mul_right size hj
    rw [Nat.succ_mul] at hle
    omega

/-- As many pages as there are rows, and one more, hold all rows. -/
theorem flatten_chunks_of_length_lt (hp : p.limit ≠ some 0) (hn : rows.length < n) :
    (p.chunks n rows).flatten = rows := by
  cases h : p.pageSize with
  | none => exact flatten_chunks_of_none h (Nat.zero_lt_of_lt hn)
  | some size =>
    have room : 0 < size :=
      reachedLimit_eq_none_iff.1 (Cursor.reachedLimit_zero hp) size h
    rw [flatten_chunks_of_some h, List.take_of_length_le]
    exact hn.le.trans (Nat.le_mul_of_pos_right n room)

end ScanProperties

namespace Cursor

open Merge (Course)

/-! ### One page -/

/-- The rows of a page that is opened at a continuation, the reason of its end and the continuation
there. -/
def page (source : Continuation → Except CursorError (Cursor α)) (p : ScanProperties)
    (c : Continuation) (w : World) :
    World × Except CursorError (List α × StopReason × Continuation) :=
  match source c with
  | .ok rows => (Handle.new (skipThenLimit p c rows)).collect w
  | .error e => (w, .error e)

/-- The source can be opened at each continuation of its course.  It hands out all that is ahead
there, whatever the world is, and never the start as a continuation. -/
def Complete (D : Course α) (source : Continuation → Except CursorError (Cursor α)) : Prop :=
  ∀ t, D.issued t → ∃ c, source t = .ok c ∧
    Hands (fun t l => D.Marks t l ∧ t.isStart = false) false c (D.ahead t)

variable {marks : Continuation → List α → Prop} {c : Cursor α} {l : List α} {p : ScanProperties}
  {D : Course α} {source : Continuation → Except CursorError (Cursor α)} {t : Continuation}

/-- The rows of a cursor within limits are those that follow the ones left out, up to the number at
which a limit is reached. -/
theorem Hands.run_limitFrom (h : Hands marks false c l) (skip : Nat) {returned : Nat}
    (hroom : reachedLimit p returned = none) (w : World) :
    ∃ w' rows t rest, (limitFrom p skip returned c).run w =
        (w', rows, .stopped (p.endOf (returned + rows.length)) t) ∧
      l.drop skip = rows.map Prod.fst ++ rest ∧ marks t rest ∧
      (reachedLimit p (returned + rows.length) = none → rest = []) ∧
      ∀ n < rows.length, reachedLimit p (returned + n) = none := by
  induction h generalizing skip returned w with
  | @row v t rest l mark _ ih =>
    rw [limitFrom]
    cases skip with
    | succ skip =>
      obtain ⟨w', rows, t, left, hrun, hrest⟩ := ih skip hroom w
      exact ⟨w', rows, t, left, hrun, hrest⟩
    | zero =>
      have first (n : Nat) (hn : n < 1) : reachedLimit p (returned + n) = none := by
        obtain rfl : n = 0 := by omega
        exact hroom
      rw [if_pos rfl]
      cases hr : reachedLimit p (returned + 1) with
      | some r =>
        refine ⟨w, [(v, t)], t, l, ?_, rfl, mark, fun hnone => ?_, first⟩
        · simp only [run, stopFor, isLimit_of_reachedLimit hr, if_true, List.length_singleton,
            ScanProperties.endOf, hr, Option.getD_some]
        · rw [List.length_singleton, hr] at hnone
          cases hnone
      | none =>
        obtain ⟨w', rows, u, left, hrun, hdrop, hmark, hdry, hbefore⟩ := ih 0 hr w
        have count : returned + 1 + rows.length = returned + ((v, t) :: rows).length := by
          rw [List.length_cons]
          omega
        rw [count] at hrun hdry
        refine ⟨w', (v, t) :: rows, u, left, ?_, congrArg (v :: ·) hdrop, hmark, hdry,
          fun n hn => ?_⟩
        · simp only [run, hrun]
        · cases n with
          | zero => exact hroom
          | succ n =>
            rw [Nat.add_comm n, ← Nat.add_assoc]
            exact hbefore n (Nat.lt_of_succ_lt_succ hn)
  | @stop r t l dry under mark =>
    obtain rfl : r = .sourceExhausted := by
      cases r with
      | sourceExhausted => rfl
      | returnLimit | timeLimit | scanLimit => exact absurd (under rfl) Bool.false_ne_true
    obtain rfl := dry rfl
    refine ⟨w, [], t, [], ?_, List.drop_nil, mark, fun _ => rfl,
      fun n hn => absurd hn (Nat.not_lt_zero n)⟩
    rw [List.length_nil, Nat.add_zero, ScanProperties.endOf, hroom]
    rfl
  | consult _ ih => exact ih w skip hroom w
  | @commit w' _ _ _ ih => exact ih skip hroom w'
  | pause _ _ ih => exact ih skip hroom (w.await _)

/-- Collected within limits, a cursor gives the rows for which there is room, and the continuation
of those that follow. -/
theorem Hands.collect_limitFrom (h : Hands marks false c l) (hp : p.limit ≠ some 0) (skip : Nat)
    (w : World) :
    let ahead := l.drop skip
    ∃ w' u, (Handle.new (limitFrom p skip 0 c)).collect w =
        (w', .ok (p.fill ahead, p.endOf (p.fill ahead).length, u)) ∧
      marks u (ahead.drop (p.fill ahead).length) := by
  intro ahead
  obtain ⟨w', rows, u, rest, hrun, hahead, hmark, hdry, hbefore⟩ :=
    h.run_limitFrom (p := p) skip (reachedLimit_zero hp) w
  simp only [Nat.zero_add] at hrun hdry hbefore
  have filled : p.fill ahead = rows.map Prod.fst := by
    rw [← List.length_map Prod.fst] at hdry hbefore
    rw [show ahead = _ from hahead]
    exact ScanProperties.fill_append hbefore hdry
  refine ⟨w'.dropAll, u, ?_, ?_⟩
  · rw [collect_new hrun, filled, List.length_map]
  · rw [filled, show ahead = _ from hahead, List.drop_left]
    exact hmark

/-- A page takes what it has room for, and it goes on from there. -/
theorem page_spec (h : Complete D source) (hp : p.limit ≠ some 0) (ht : D.issued t) (w : World) :
    let ahead := (D.ahead t).drop (if t.isStart then p.skip else 0)
    ∃ w' u, page source p t w = (w', .ok (p.fill ahead, p.endOf (p.fill ahead).length, u)) ∧
      D.issued u ∧ u.isStart = false ∧ D.ahead u = ahead.drop (p.fill ahead).length := by
  intro ahead
  obtain ⟨c, hc, hhands⟩ := h t ht
  obtain ⟨w', u, hcollect, hmark, hstart⟩ :=
    hhands.collect_limitFrom hp (if t.isStart then p.skip else 0) w
  refine ⟨w', u, ?_, hmark.1, hstart, hmark.2⟩
  rw [page, hc]
  dsimp only
  rw [skipThenLimit, reachedLimit_zero hp]
  exact hcollect

/-! ### Page after page -/

/-- Page after page under one request, each on the continuation of the one before it: their rows and
the reasons of their ends. -/
def pages (source : Continuation → Except CursorError (Cursor α)) (p : ScanProperties) :
    Nat → Continuation → World → Except CursorError (List (List α × StopReason))
  | 0, _, _ => .ok []
  | n + 1, t, w =>
    match page source p t w with
    | (_, .error e) => .error e
    | (w, .ok (rows, reason, t)) => (pages source p n t w).map ((rows, reason) :: ·)

theorem pages_eq (h : Complete D source) (hp : p.limit ≠ some 0) (n : Nat) (ht : D.issued t)
    (w : World) :
    pages source p n t w = .ok
      ((p.chunks n ((D.ahead t).drop (if t.isStart then p.skip else 0))).map fun rows =>
        (rows, p.endOf rows.length)) := by
  induction n generalizing t w with
  | zero => rfl
  | succ n ih =>
    obtain ⟨w', u, hpage, hu, hstart, hahead⟩ := page_spec h hp ht w
    rw [pages, hpage]
    dsimp only
    rw [ih hu, hstart, hahead]
    rfl

/-! ### Pages of a list -/

theorem Hands.and {marks' : Continuation → List α → Prop} {limited : Bool}
    (h : Hands marks limited c l) (h' : Hands marks' limited c l) :
    Hands (fun t l => marks t l ∧ marks' t l) limited c l := by
  induction h with
  | row mark _ ih =>
    cases h' with
    | row mark' rest' => exact .row ⟨mark, mark'⟩ (ih rest')
  | stop dry under mark =>
    cases h' with
    | stop _ _ mark' => exact .stop dry under ⟨mark, mark'⟩
  | consult _ ih =>
    cases h' with
    | consult each' => exact .consult fun w => ih w (each' w)
  | commit _ ih =>
    cases h' with
    | commit then' => exact .commit (ih then')
  | pause turn _ ih =>
    cases h' with
    | pause _ rest' => exact .pause turn (ih rest')

theorem hands_resumed (i : UInt64) (l : List α) :
    Hands (fun t _ => t.isStart = false) false (rowsFrom i l) l := by
  induction l generalizing i with
  | nil => exact .stop (fun _ => rfl) (fun h => by cases h) rfl
  | cons a l ih => exact .row rfl (ih (i + 1))

/-- Collected within limits, a list gives the rows for which there is room after those left out. -/
theorem collect_ofList (l : List α) (hp : p.limit ≠ some 0) (w : World) :
    let ahead := l.drop p.skip
    ∃ w' u, (Handle.new (skipThenLimit p .start (ofList l))).collect w =
      (w', .ok (p.fill ahead, p.endOf (p.fill ahead).length, u)) := by
  obtain ⟨w', u, hcollect, -⟩ := (hands_resumed 0 l).collect_limitFrom hp p.skip w
  refine ⟨w', u, ?_⟩
  rw [skipThenLimit, reachedLimit_zero hp]
  exact hcollect

theorem complete_list {items : List α} (hitems : items.length < 2 ^ 64) :
    Complete (Merge.listCourse items) (list items) := by
  intro t ht
  by_cases hdone : t = .done
  · subst hdone
    exact ⟨exhausted, rfl, .stop (fun _ => rfl) (fun h => by cases h) ⟨⟨ht, rfl⟩, rfl⟩⟩
  · obtain ⟨c, hc, hhands⟩ := Merge.hands_list hitems ht hdone
    refine ⟨c, hc, hhands.and ?_⟩
    rw [list.eq_def] at hc
    show Hands _ _ c (Merge.listAhead items t)
    rw [Merge.listAhead]
    split at hc
    · exact absurd rfl hdone
    · split at hc
      · cases hc
      · rename_i hposition
        obtain rfl := Except.ok.inj hc
        rw [hposition]
        have hnot : t.isDone = false := by
          cases t with
          | done => exact absurd rfl hdone
          | start | resume => rfl
        rw [hnot, if_neg Bool.false_ne_true]
        exact hands_resumed 0 items
      · rename_i hposition
        obtain rfl := Except.ok.inj hc
        rw [hposition]
        exact hands_resumed _ _

/-- Read page by page from the start, a list comes without its first `p.skip` elements, each of the
others once and in order.  Without a limit on time, or with one that never passes, the page of
number `j` holds the elements from `j * size` on, `size` of them unless the list ends before; it
ends for the row limit if it is full, and otherwise because the list ran dry.  If the time is up
whenever it is looked at, every page holds a single element until there is none.  Positions in a
list are numbers of 64 bits, so that no list is longer than they count. -/
theorem list_pages (items : List α) (hitems : items.length < 2 ^ 64) (p : ScanProperties)
    (hlimit : p.limit ≠ some 0) (n : Nat) (w : World) :
    let kept := items.drop p.skip
    ∃ read, pages (list items) p n .start w = .ok read ∧ read.length = n ∧
      (p.rowsInTime = none → ∀ j < n,
        (∀ size, p.limit = some size →
          let rows := (kept.drop (j * size)).take size
          read[j]? = some (rows,
            if rows.length = size then StopReason.returnLimit else StopReason.sourceExhausted)) ∧
        (p.limit = none →
          read[j]? = some (if j = 0 then kept else [], StopReason.sourceExhausted))) ∧
      (p.rowsInTime = some 1 → ∀ j < n,
        read[j]? = some (match kept[j]? with
          | some a =>
            ([a], if p.limit = some 1 then StopReason.returnLimit else StopReason.timeLimit)
          | none => ([], StopReason.sourceExhausted))) ∧
      read.flatMap Prod.fst <+: kept ∧
      ((∃ rows, (rows, .sourceExhausted) ∈ read) ∨ kept.length < n →
        read.flatMap Prod.fst = kept) := by
  intro kept
  have hread : pages (list items) p n .start w =
      .ok ((p.chunks n kept).map fun rows => (rows, p.endOf rows.length)) :=
    pages_eq (complete_list hitems) hlimit n (.inl rfl) w
  have rows_eq : ((p.chunks n kept).map fun rows => (rows, p.endOf rows.length)).flatMap Prod.fst =
      (p.chunks n kept).flatten := by
    rw [List.flatMap_map]
    exact List.flatMap_id
  obtain ⟨front, all⟩ := p.flatten_chunks n kept
  refine ⟨_, hread, ?_, fun htime j hj => ⟨fun size hsize => ?_, fun hnone => ?_⟩,
    fun htime j hj => ?_, ?_, ?_⟩
  · rw [List.length_map, ScanProperties.length_chunks]
  · have size_eq : p.pageSize = some size := by
      rw [ScanProperties.pageSize_of_untimed htime, hsize]
    intro rows
    rw [List.getElem?_map, ScanProperties.getElem?_chunks_of_some size_eq hj, Option.map_some,
      ScanProperties.endOf_of_untimed htime hsize (List.length_take_le _ _)]
  · have size_eq : p.pageSize = none := by
      rw [ScanProperties.pageSize_of_untimed htime, hnone]
    rw [List.getElem?_map, ScanProperties.getElem?_chunks_of_none size_eq hj, Option.map_some,
      ScanProperties.endOf_eq_sourceExhausted_iff.2 (by rw [size_eq]; exact nofun)]
  · have size_eq : p.pageSize = some 1 := ScanProperties.pageSize_one htime hlimit
    rw [List.getElem?_map, ScanProperties.getElem?_chunks_of_some size_eq hj, Option.map_some,
      Nat.mul_one, List.take_one, List.head?_drop]
    cases kept[j]? with
    | none =>
      have dry : p.endOf 0 = .sourceExhausted :=
        ScanProperties.endOf_eq_sourceExhausted_iff.2 fun size hsize => by
          rw [← Option.some.inj (size_eq.symm.trans hsize)]
          exact Nat.one_pos
      exact congrArg (fun r => some ([], r)) dry
    | some a =>
      exact congrArg (fun r => some ([a], r)) (ScanProperties.endOf_one htime hlimit)
  · rw [rows_eq]
    exact front
  · rw [rows_eq]
    rintro (⟨rows, hrows⟩ | hn)
    · obtain ⟨page, hpage, heq⟩ := List.mem_map.1 hrows
      obtain ⟨rfl, hend⟩ := Prod.mk.inj heq
      exact all page hpage (ScanProperties.endOf_eq_sourceExhausted_iff.1 hend)
    · exact ScanProperties.flatten_chunks_of_length_lt hlimit hn

/-- Two of ten numbers are left out.  Three pages of up to three hold the others; if the time is up
whenever it is looked at, a page holds one. -/
theorem list_pages_sample :
    let numbers : List Nat := [1, 2, 3, 4, 5, 6, 7, 8, 9, 10]
    let p := (ScanProperties.forward.withSkip 2).withLimit 3
    numbers.length < 2 ^ 64 ∧ p.limit ≠ some 0 ∧
      (∃ read, pages (list numbers) p 3 .start .empty = .ok read ∧
        read[0]? = some ([3, 4, 5], StopReason.returnLimit) ∧
        read[2]? = some ([9, 10], StopReason.sourceExhausted) ∧
        read.flatMap Prod.fst = [3, 4, 5, 6, 7, 8, 9, 10]) ∧
      ∃ read, pages (list numbers) (p.withTimeLimit (some .elapsed)) 9 .start .empty = .ok read ∧
        read[1]? = some ([4], StopReason.timeLimit) ∧
        read[8]? = some ([], StopReason.sourceExhausted) := by
  intro numbers p
  have short : numbers.length < 2 ^ 64 := by decide
  have some_rows : p.limit ≠ some 0 := by decide
  obtain ⟨read, hread, -, untimed, -, -, all⟩ := list_pages numbers short p some_rows 3 .empty
  have holds (j : Nat) (hj : j < 3) := (untimed (by decide) j hj).1 3 rfl
  have last : read[2]? = some ([9, 10], StopReason.sourceExhausted) := holds 2 (by decide)
  obtain ⟨slow, hslow, -, -, timed, -, -⟩ :=
    list_pages numbers short (p.withTimeLimit (some .elapsed)) some_rows 9 .empty
  exact ⟨short, some_rows,
    ⟨read, hread, holds 0 (by decide), last, all (.inl ⟨_, List.mem_of_getElem? last⟩)⟩,
    slow, hslow, timed rfl 1 (by decide), timed rfl 8 (by decide)⟩

end Cursor

end ResumableQuery
