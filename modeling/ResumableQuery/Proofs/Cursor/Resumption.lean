import ResumableQuery.Cursor.Adapter
import ResumableQuery.Proofs.Cursor.Multiplicity

/-!
# Merges are resumed where they were left

A merge of legs that can be resumed can be resumed itself: opened on the continuation of one of its
rows, or of a limit for which it stopped, it returns what it would have returned from there on
(`returns_of_interrupted`).  What a leg's continuations stand for is its `Course`.  The rows of the
legs need not be in order, and the legs may stop for limits of their own wherever they are.

Rows that were read ahead and not used when the merge was left are among those that the legs have
ahead when it is resumed: the two differ by what the merge took and passed over (`Leaves`).
-/

namespace ResumableQuery.Cursor.Merge

variable {m : Merge α} {f : α → Tuple} {limited : Bool}

/-! ### Courses -/

/-- What the continuations of a leg stand for: the continuations that it hands out or may be opened
at, and the rows ahead of each of them.  They are short enough to be written down. -/
structure Course (α : Type) : Type where
  issued : Continuation → Prop
  ahead : Continuation → List α
  ahead_done : ahead .done = []
  fits {t} : issued t → t.toBytes.length < 2 ^ 64

/-- Rows that are left at a continuation are those ahead of it. -/
def Course.Marks (D : Course α) (t : Continuation) (l : List α) : Prop := D.issued t ∧ D.ahead t = l

/-- The rows ahead of legs at some continuations. -/
def aheads (Ds : List (Course α)) (ts : List Continuation) : List (List α) :=
  List.zipWith Course.ahead Ds ts

/-- The openers open legs that keep to their courses.  At whichever of their continuations the legs
are opened, they hand out what is ahead when they are read side by side from a world on, and if
they are limited they may stop before. -/
structure Resumable (Ds : List (Course α)) (limited : Bool) (openers : List (OpenLeg α))
    (w : World) : Prop where
  length_eq : openers.length = Ds.length
  opens {ts : List Continuation} : List.Forall₂ (fun D t => D.issued t) Ds ts →
    ∃ xs, List.Forall₂ OpensLeg (openers.zip ts) xs ∧ xs.map Input.rows = aheads Ds ts ∧
      xs.map Input.marks = Ds.map Course.Marks ∧ Supplied limited xs w

theorem Resumable.handsOut {Ds : List (Course α)} {openers : List (OpenLeg α)} {w : World}
    (h : Resumable Ds false openers w) {ts : List Continuation}
    (hts : List.Forall₂ (fun D t => D.issued t) Ds ts) :
    HandsOut (openers.zip ts) (aheads Ds ts) w := by
  obtain ⟨xs, hopen, hrows, -, hsupply⟩ := h.opens hts
  exact ⟨xs, hopen, hrows, hsupply⟩

theorem keyed_aheads {Ds : List (Course α)} {ts : List Continuation}
    (hkeyed : ∀ D ∈ Ds, ∀ t, D.issued t → Keyed m f (D.ahead t))
    (hts : List.Forall₂ (fun D t => D.issued t) Ds ts) : ∀ l ∈ aheads Ds ts, Keyed m f l := by
  induction hts with
  | nil => exact fun l hl => by cases hl
  | @cons D t Ds ts ht _ ih =>
    exact List.forall_mem_cons.2 ⟨hkeyed D List.mem_cons_self t ht,
      ih fun D hD => hkeyed D (List.mem_cons_of_mem _ hD)⟩

/-- Continuations that stand for rows are continuations of the courses, and the rows are those
ahead. -/
theorem eq_aheads_of_marked {Ds : List (Course α)} {ts : List Continuation} {ls : List (List α)}
    (h : Marked (Ds.map Course.Marks) ts ls) :
    List.Forall₂ (fun D t => D.issued t) Ds ts ∧ ls = aheads Ds ts := by
  induction Ds generalizing ts ls with
  | nil =>
    cases h
    exact ⟨.nil, rfl⟩
  | cons D Ds ih =>
    cases h with
    | cons mark rest =>
      obtain ⟨hts, rfl⟩ := ih rest
      obtain ⟨ht, rfl⟩ := mark
      exact ⟨.cons ht hts, rfl⟩

/-! ### What a merge leaves -/

/-- Handing out some rows takes a merge from what its legs have ahead to what they have then. -/
inductive Leaves (m : Merge α) (f : α → Tuple) : List (List α) → List α → List (List α) → Prop
  | refl {ls} : Leaves m f ls [] ls
  | take {ls k v vs ls'} (taken : m.choice (ls.map fun l => l.head?.map f) = .take k)
      (first : (ls.findSome? fun l => l.head?.filter ((· = k) ∘ f)) = some v)
      (rest : Leaves m f (ls.map (advance f (· = k))) vs ls') : Leaves m f ls (v :: vs) ls'
  | pass {ls k vs ls'} (passed : m.choice (ls.map fun l => l.head?.map f) = .pass k)
      (rest : Leaves m f (ls.map (advance f (· ≠ k))) vs ls') : Leaves m f ls vs ls'

/-- What is left comes to the rows that are left. -/
theorem Leaves.combine_eq {ls ls' : List (List α)} {vs R : List α} (h : Leaves m f ls vs ls')
    (hkeyed : ∀ l ∈ ls, Keyed m f l) (hR : m.combine (ls.map .ofList) = .ofList R) :
    ∃ R', R = vs ++ R' ∧ m.combine (ls'.map .ofList) = .ofList R' := by
  induction h generalizing R with
  | refl => exact ⟨R, rfl, hR⟩
  | @take ls k v vs ls' taken first rest ih =>
    rw [combine_of_taken hkeyed taken first] at hR
    cases R with
    | nil => cases hR
    | cons u R =>
      obtain ⟨rfl, hrest⟩ := Prospect.row.inj hR
      obtain ⟨R', rfl, hR'⟩ := ih (keyed_advance hkeyed) hrest
      exact ⟨R', rfl, hR'⟩
  | @pass ls k vs ls' passed rest ih =>
    rw [combine_of_passed hkeyed passed] at hR
    exact ih (keyed_advance hkeyed) hR

/-- The rows that come before a continuation at which a merge may be left: that of a row, or that of
a limit for which it stopped. -/
inductive Interrupted (rows : List (α × Continuation)) (e : Ending) :
    List α → Continuation → Prop
  | row {before v t after} (rows_eq : rows = before ++ (v, t) :: after) :
      Interrupted rows e (before.map Prod.fst ++ [v]) t
  | limit {r t} (ending : e = .stopped r t) (isLimit : r.isLimit = true) :
      Interrupted rows e (rows.map Prod.fst) t

theorem Delivered.leaves {at_ : Continuation → List (List α) → Prop} {ls : List (List α)}
    {rows : List (α × Continuation)} {e : Ending} (h : Delivered m f limited at_ ls rows e)
    {vs : List α} {t : Continuation} (hleft : Interrupted rows e vs t) :
    ∃ ls', Leaves m f ls vs ls' ∧ at_ t ls' := by
  induction h generalizing vs with
  | @take ls k v t' rows e taken first mark rest ih =>
    cases hleft with
    | @row before u _ after rows_eq =>
      cases before with
      | nil =>
        obtain ⟨hrow, -⟩ := List.cons.inj rows_eq
        obtain ⟨rfl, rfl⟩ := Prod.mk.inj hrow
        exact ⟨_, .take taken first .refl, mark⟩
      | cons b before =>
        obtain ⟨rfl, hrows⟩ := List.cons.inj rows_eq
        obtain ⟨ls', hleaves, hat⟩ := ih (.row hrows)
        exact ⟨ls', .take taken first hleaves, hat⟩
    | limit ending isLimit =>
      obtain ⟨ls', hleaves, hat⟩ := ih (.limit ending isLimit)
      exact ⟨ls', .take taken first hleaves, hat⟩
  | pass passed rest ih =>
    obtain ⟨ls', hleaves, hat⟩ := ih hleft
    exact ⟨ls', .pass passed hleaves, hat⟩
  | dry =>
    cases hleft with
    | row rows_eq => simp at rows_eq
    | limit ending isLimit =>
      cases ending
      cases isLimit
  | limit under isLimit' mark =>
    cases hleft with
    | row rows_eq => simp at rows_eq
    | limit ending isLimit =>
      cases ending
      exact ⟨_, .refl, mark⟩

/-! ### Resuming -/

theorem openLegs_congr {ts : List Continuation} {openers openers' : List (OpenLeg α)}
    (hlen : openers.length = openers'.length)
    (hsame : ∀ (i : Nat) (t : Continuation), ts[i]? = some t → t ≠ .done →
      openers[i]? = openers'[i]?) :
    ((openers.zip ts).mapM fun (opener, token) => openLeg opener token) =
      (openers'.zip ts).mapM fun (opener, token) => openLeg opener token := by
  induction openers generalizing openers' ts with
  | nil =>
    cases openers' with
    | nil => rfl
    | cons => cases hlen
  | cons o openers ih =>
    cases openers' with
    | nil => cases hlen
    | cons o' openers' =>
      cases ts with
      | nil => rfl
      | cons t ts =>
        have hleg : openLeg o t = openLeg o' t := by
          by_cases ht : t = .done
          · rw [ht]
            rfl
          · rw [Option.some.inj (hsame 0 t rfl ht)]
        rw [List.zip_cons_cons, List.zip_cons_cons, List.mapM_cons, List.mapM_cons,
          ih (Nat.succ.inj hlen) fun i => hsame (i + 1)]
        show (openLeg o t >>= _) = (openLeg o' t >>= _)
        rw [hleg]

/-- Whatever the openers are of legs that had run dry, the merge is the same. -/
theorem openAt_congr {c : Continuation} {ts : List Continuation}
    {openers openers' : List (OpenLeg α)} (hlen : openers.length = openers'.length)
    (hresume : m.resume openers.length c = .ok ts)
    (hsame : ∀ (i : Nat) (t : Continuation), ts[i]? = some t → t ≠ .done →
      openers[i]? = openers'[i]?) :
    m.openAt openers c = m.openAt openers' c := by
  rw [openAt, openAt, ← hlen, hresume]
  exact congrArg (fun legs : Except CursorError (Legs α) => if c.isDone then .ok exhausted else
    legs.map (m.rows [])) (openLegs_congr hlen hsame)

section Law

variable {Ds : List (Course α)} (hcount : Ds.length < 2 ^ 64)
  (hkeyed : ∀ D ∈ Ds, ∀ t, D.issued t → Keyed m f (D.ahead t))

include hcount in
theorem resume_of_issued {ts : List Continuation}
    (hts : List.Forall₂ (fun D t => D.issued t) Ds ts) :
    m.resume Ds.length (m.place ts) = .ok ts := by
  rw [hts.length_eq]
  refine m.resume_place (hts.length_eq ▸ hcount) fun t ht => ?_
  obtain ⟨i, hi⟩ := List.mem_iff_getElem?.1 ht
  obtain ⟨D, -, hD⟩ := exists_of_forall₂_getElem? hts hi
  exact D.fits hD

include hcount hkeyed

/-- A merge that is left at the continuation of a row, or of a limit for which it stopped, and opened
there again returns the rest of what an uninterrupted merge returns that is not limited.  What the
legs have ahead then is what the rows that were handed out leave, so rows that were only read ahead
are read again; and legs that had run dry are not opened. -/
theorem returns_of_interrupted {c : Continuation} (hc : c ≠ .done) {ts : List Continuation}
    (hresume : m.resume Ds.length c = .ok ts)
    (hts : List.Forall₂ (fun D t => D.issued t) Ds ts) {openers : List (OpenLeg α)} {w : World}
    (hlegs : Resumable Ds limited openers w) {openers₀ : List (OpenLeg α)} {w₀ : World}
    (hlegs₀ : Resumable Ds false openers₀ w₀) :
    ∃ R cur, m.Returns openers₀ c w₀ R ∧ m.openAt openers c = .ok cur ∧
      ∀ vs t, Interrupted (cur.run w).2.1 (cur.run w).2.2 vs t →
        ∃ R' ts', R = vs ++ R' ∧ m.resume Ds.length t = .ok ts' ∧
          List.Forall₂ (fun D t => D.issued t) Ds ts' ∧
          Leaves m f (aheads Ds ts) vs (aheads Ds ts') ∧
          (∀ openers' w', Resumable Ds false openers' w' → m.Returns openers' t w' R') ∧
          ∀ openers₁ openers₂ : List (OpenLeg α), openers₁.length = Ds.length →
            openers₂.length = Ds.length →
            (∀ (i : Nat) (u : Continuation), ts'[i]? = some u → u ≠ .done →
              openers₁[i]? = openers₂[i]?) →
            m.openAt openers₁ t = m.openAt openers₂ t := by
  have hrows := keyed_aheads hkeyed hts
  obtain ⟨R, hR, hcombine⟩ := exists_returns (w := w₀) hc (hlegs₀.length_eq ▸ hresume)
    (hlegs₀.handsOut hts) hrows
  obtain ⟨xs, hopen, hxs, hmarks, hsupply⟩ := hlegs.opens hts
  obtain ⟨cur, hcur, hdelivers⟩ := delivers_openAt hc (hlegs.length_eq ▸ hresume) hopen
    (List.forall_mem_map.1 (hxs ▸ hrows)) hsupply
  rw [hxs, hmarks] at hdelivers
  refine ⟨R, cur, hR, hcur, fun vs t hleft => ?_⟩
  obtain ⟨ls', hleaves, ts', rfl, hmarked⟩ := hdelivers.leaves hleft
  obtain ⟨hts', rfl⟩ := eq_aheads_of_marked hmarked
  obtain ⟨R', rfl, hcombine'⟩ := hleaves.combine_eq hrows hcombine
  have hresume' : m.resume Ds.length (m.place ts') = .ok ts' := resume_of_issued hcount hts'
  refine ⟨R', ts', rfl, hresume', hts', hleaves, fun openers' w' hlegs' => ?_,
    fun openers₁ openers₂ hlen₁ hlen₂ hsame => ?_⟩
  · obtain ⟨R'', hR'', hcombine''⟩ := exists_returns (m.place_ne_done ts')
      (hlegs'.length_eq ▸ hresume') (hlegs'.handsOut hts') (keyed_aheads hkeyed hts')
    rwa [Prospect.ofList_injective (hcombine'.symm.trans hcombine'')]
  · exact openAt_congr (hlen₁.trans hlen₂.symm) (hlen₁ ▸ hresume') hsame

end Law

/-! ### Legs of lists -/

/-- A leg that pays no heed to the world is opened as an input that hands out what is ahead. -/
theorem exists_input_of_hands {D : Course α} {opener : OpenLeg α} {t : Continuation}
    (h : t ≠ .done → ∃ c, opener t = .ok c ∧ Hands D.Marks limited c (D.ahead t))
    (ht : D.issued t) :
    ∃ x : Input α, OpensLeg (opener, t) x ∧ x.rows = D.ahead t ∧ x.marks = D.Marks ∧
      x.Steady limited := by
  by_cases hdone : t = .done
  · subst hdone
    have mark : D.Marks .done [] := ⟨ht, D.ahead_done⟩
    exact ⟨_, .ended mark, D.ahead_done.symm, rfl,
      Hands.steady (.stop (fun _ => rfl) (fun h => by cases h) mark)⟩
  · obtain ⟨c, hc, hhands⟩ := h hdone
    exact ⟨_, .opened hdone hc ⟨ht, rfl⟩, rfl, rfl, hhands.steady⟩

/-- Legs that pay no heed to the world can be resumed if each of them, opened at any of its
continuations, hands out what is ahead. -/
theorem resumable_of_hands {Ds : List (Course α)} {openers : List (OpenLeg α)}
    (h : List.Forall₂ (fun D opener => ∀ t, D.issued t → t ≠ .done →
      ∃ c, opener t = .ok c ∧ Hands D.Marks limited c (D.ahead t)) Ds openers) (w : World) :
    Resumable Ds limited openers w := by
  refine ⟨h.length_eq.symm, fun {ts} hts => ?_⟩
  have hinputs : ∃ xs : List (Input α), List.Forall₂ OpensLeg (openers.zip ts) xs ∧
      xs.map Input.rows = aheads Ds ts ∧ xs.map Input.marks = Ds.map Course.Marks ∧
      ∀ x ∈ xs, x.Steady limited := by
    induction h generalizing ts with
    | nil =>
      cases hts
      exact ⟨[], .nil, rfl, rfl, fun x hx => by cases hx⟩
    | cons hD _ ih =>
      cases hts with
      | cons ht hts =>
        obtain ⟨xs, hopen, hrows, hmarks, hsteady⟩ := ih hts
        obtain ⟨x, hx, hxrows, hxmarks, hxsteady⟩ := exists_input_of_hands (hD _ ht) ht
        exact ⟨x :: xs, .cons hx hopen, congrArg₂ List.cons hxrows hrows,
          congrArg₂ List.cons hxmarks hmarks, List.forall_mem_cons.2 ⟨hxsteady, hsteady⟩⟩
  obtain ⟨xs, hopen, hrows, hmarks, hsteady⟩ := hinputs
  exact ⟨xs, hopen, hrows, hmarks, supplied_of_steady hsteady w⟩

/-- The elements of a list after a continuation. -/
def listAhead (l : List α) (t : Continuation) : List α :=
  match t.position ListPosition.ofWire with
  | .ok (some p) => l.drop p.nextIndex.toNat
  | _ => if t.isDone then [] else l

/-- The course of a list: a continuation says how many elements were handed out. -/
def listCourse (l : List α) : Course α where
  issued t := t = .start ∨ t = .done ∨
    ∃ i : UInt64, t = (ListPosition.mk i).toContinuation ∧ i.toNat ≤ l.length
  ahead := listAhead l
  ahead_done := rfl
  fits := by
    rintro t (rfl | rfl | ⟨i, rfl, -⟩)
    · decide
    · decide
    · rw [ListPosition.toContinuation, Continuation.toBytes, List.length_cons, ListPosition.toWire,
        Wire.word64, littleEndian_length]
      decide

theorem position_listPosition (i : UInt64) :
    (ListPosition.mk i).toContinuation.position ListPosition.ofWire = .ok (some ⟨i⟩) := by
  have hword : i.toNat < 256 ^ 8 := i.toNat_lt
  have hreads := (Wire.reads_readWord hword).map fun n => ListPosition.mk (UInt64.ofNat n)
  rw [UInt64.ofNat_toNat] at hreads
  exact Continuation.position_resume hreads

theorem listAhead_listPosition (l : List α) (i : UInt64) :
    listAhead l (ListPosition.mk i).toContinuation = l.drop i.toNat := by
  rw [listAhead, position_listPosition]

theorem hands_drop {l : List α} (hl : l.length < 2 ^ 64) (i : UInt64) (hi : i.toNat ≤ l.length) :
    Hands (listCourse l).Marks limited (rowsFrom i (l.drop i.toNat)) (l.drop i.toNat) := by
  induction hrest : l.drop i.toNat generalizing i with
  | nil => exact .stop (fun _ => rfl) (fun h => by cases h) ⟨.inr (.inl rfl), rfl⟩
  | cons a rest ih =>
    have hlt : i.toNat < l.length := by
      have := congrArg List.length hrest
      rw [List.length_drop, List.length_cons] at this
      omega
    have hnext : (i + 1).toNat = i.toNat + 1 := by
      rw [UInt64.toNat_add, show (1 : UInt64).toNat = 1 from rfl, Nat.mod_eq_of_lt (by omega)]
    have hrest' : l.drop (i + 1).toNat = rest := by
      rw [hnext, ← List.drop_drop, hrest]
      rfl
    have mark : (listCourse l).Marks (ListPosition.mk (i + 1)).toContinuation rest := by
      refine ⟨.inr (.inr ⟨i + 1, rfl, by omega⟩), ?_⟩
      rw [show (listCourse l).ahead = listAhead l from rfl, listAhead_listPosition, hrest']
    exact .row mark (ih (i + 1) (by omega) hrest')

/-- A list can be opened at each of its continuations. -/
theorem hands_list {l : List α} (hl : l.length < 2 ^ 64) {t : Continuation}
    (ht : (listCourse l).issued t) (hdone : t ≠ .done) :
    ∃ c, list l t = .ok c ∧ Hands (listCourse l).Marks limited c ((listCourse l).ahead t) := by
  rcases ht with rfl | rfl | ⟨i, rfl, hi⟩
  · have hhands : Hands (listCourse l).Marks limited _ _ := hands_drop hl 0 (Nat.zero_le _)
    rw [UInt64.toNat_zero, List.drop_zero] at hhands
    exact ⟨rowsFrom 0 l, rfl, hhands⟩
  · exact absurd rfl hdone
  · refine ⟨rowsFrom i (l.drop i.toNat), ?_, ?_⟩
    · have hposition := position_listPosition i
      rw [ListPosition.toContinuation] at hposition ⊢
      simp only [list, hposition]
    · rw [show (listCourse l).ahead = listAhead l from rfl, listAhead_listPosition]
      exact hands_drop hl i hi

/-- Under limits of its own a cursor hands out some of its rows. -/
theorem hands_limitFrom {marks : Continuation → List α → Prop} {c : Cursor α} {l : List α}
    (h : Hands marks limited c l) (p : ScanProperties) (returned : Nat) :
    Hands marks true (limitFrom p 0 returned c) l := by
  induction h generalizing returned with
  | row mark _ ih =>
    refine .row mark ?_
    split
    · rename_i r hr
      have isLimit := isLimit_of_reachedLimit hr
      rw [stopFor, if_pos isLimit]
      exact .stop (fun h => by rw [isLimit] at h; cases h) (fun _ => rfl) mark
    · exact ih (returned + 1)
  | stop dry _ mark => exact .stop dry (fun _ => rfl) mark
  | consult _ ih => exact .consult fun w => ih w returned
  | commit _ ih => exact .commit (ih returned)
  | pause turn _ ih => exact .pause turn (ih returned)

theorem hands_limitedList {l : List α} (hl : l.length < 2 ^ 64) {p : ScanProperties}
    (hp : p.skip = 0) {t : Continuation} (ht : (listCourse l).issued t) (hdone : t ≠ .done) :
    ∃ c, (list l t).map (skipThenLimit p t) = .ok c ∧
      Hands (listCourse l).Marks true c ((listCourse l).ahead t) := by
  obtain ⟨c, hc, (hhands : Hands _ false c _)⟩ := hands_list hl ht hdone
  refine ⟨_, by rw [hc]; rfl, ?_⟩
  rw [skipThenLimit]
  split
  · rename_i r hr
    have isLimit := isLimit_of_reachedLimit hr
    rw [stopFor, if_pos isLimit]
    exact .stop (fun h => by rw [isLimit] at h; cases h) (fun _ => rfl) ⟨ht, rfl⟩
  · rw [hp, ite_self]
    exact hands_limitFrom hhands p 0

/-- Numbers in no order. -/
def sampleShuffled : List (List (Int64 × String)) :=
  [[(3, "a"), (1, "b"), (1, "c")], [(1, "d"), (2, "e")]]

/-- Opens a list to be read one element at a time. -/
def singly (l : List α) (t : Continuation) : Except CursorError (Cursor α) :=
  (list l t).map (skipThenLimit { ScanProperties.forward with limit := some 1 } t)

theorem returns_of_interrupted_sample :
    ∃ R cur t R', (sampleMerge .union false).Returns (sampleShuffled.map list) .start .empty R ∧
      (sampleMerge .union false).openAt (sampleShuffled.map singly) .start = .ok cur ∧
      (cur.run .empty).2.2 = .stopped .returnLimit t ∧
      R = (cur.run .empty).2.1.map Prod.fst ++ R' ∧
      (sampleMerge .union false).Returns (sampleShuffled.map list) t .empty R' := by
  have hshort : ∀ l ∈ sampleShuffled, l.length < 2 ^ 64 := by decide
  have hlists :
      Resumable (sampleShuffled.map listCourse) false (sampleShuffled.map list) .empty := by
    refine resumable_of_hands (List.forall₂_map_left_iff.2 (List.forall₂_map_right_iff.2
      (List.forall₂_same.2 fun l hl t ht hdone => hands_list (hshort l hl) ht hdone))) .empty
  have hsingly :
      Resumable (sampleShuffled.map listCourse) true (sampleShuffled.map singly) .empty :=
    resumable_of_hands (List.forall₂_map_left_iff.2 (List.forall₂_map_right_iff.2
      (List.forall₂_same.2 fun l hl t ht hdone =>
        hands_limitedList (hshort l hl) rfl ht hdone))) .empty
  have hstart : List.Forall₂ (fun D t => D.issued t) (sampleShuffled.map listCourse)
      [.start, .start] := .cons (.inl rfl) (.cons (.inl rfl) .nil)
  obtain ⟨R, cur, hR, hcur, hleft⟩ := returns_of_interrupted (m := sampleMerge .union false)
    (f := sampleKey) (by decide) (fun D _ t _ => keyed_sampleMerge .union false _) (c := .start)
    (by decide) rfl hstart hsingly hlists
  have hend : (cur.run .empty).2.2 = .stopped .returnLimit
      ((sampleMerge .union false).place [.start, (ListPosition.mk 1).toContinuation]) := by
    obtain rfl := Except.ok.inj hcur
    cbv
  obtain ⟨R', ts', hR', -, -, -, hrest, -⟩ := hleft _ _ (.limit hend rfl)
  exact ⟨R, cur, _, R', hR, hcur, hend, hR', hrest _ _ hlists⟩

end ResumableQuery.Cursor.Merge
