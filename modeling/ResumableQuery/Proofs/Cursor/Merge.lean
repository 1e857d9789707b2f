import ResumableQuery.Proofs.Cursor.Legs
import ResumableQuery.Proofs.Position

/-!
# Merges follow their readings

Where each leg of a merge follows a reading, the merge hands out what `combine` makes of what is
ahead of its legs (`follows_openAt`).  The invariant that carries this through reading ahead, using
rows and passing over rows is `Holds`: it ties the prospect and the outlook from which the merge set
out to those of the legs as they stand.  The continuation of a merge stands for the continuations of
its legs after the last rows that were used, so rows that were read ahead remain ahead.
-/

namespace ResumableQuery.Cursor

open Prospect

/-! ### Lists in step -/

theorem exists_of_forall₂_getElem? {R : α → β → Prop} {as : List α} {bs : List β}
    (h : List.Forall₂ R as bs) {i : Nat} {b : β} (hb : bs[i]? = some b) :
    ∃ a, as[i]? = some a ∧ R a b := by
  induction h generalizing i with
  | nil => cases hb
  | cons hr _ ih =>
    cases i with
    | zero =>
      cases hb
      exact ⟨_, rfl, hr⟩
    | succ i => exact ih hb

theorem forall₂_set {R : α → β → Prop} {as : List α} {bs : List β} (h : List.Forall₂ R as bs)
    {i : Nat} {a : α} {b : β} (ha : as[i]? = some a) (hr : R a b) :
    List.Forall₂ R as (bs.set i b) := by
  induction h generalizing i with
  | nil => exact .nil
  | cons h hs ih =>
    cases i with
    | zero =>
      cases ha
      exact .cons hr hs
    | succ i => exact .cons h (ih ha)

theorem exists_of_forall₂_mem {R : α → β → Prop} {as : List α} {bs : List β}
    (h : List.Forall₂ R as bs) {b : β} (hb : b ∈ bs) : ∃ a, R a b := by
  obtain ⟨i, hi⟩ := List.mem_iff_getElem?.1 hb
  obtain ⟨a, -, hr⟩ := exists_of_forall₂_getElem? h hi
  exact ⟨a, hr⟩

namespace Merge

open Legs

/-! ### The reading of a merge -/

section Reading

variable (m : Merge α)

/-- The continuation of a merge whose legs go on at some continuations. -/
def place (ts : List Continuation) : Continuation :=
  (MergePosition.of m.planHash ts).toContinuation

/-- Where each of `count` legs goes on. -/
def tokensAt (count : Nat) : Continuation → List Continuation
  | .done => List.replicate count .done
  | c =>
    match m.resume count c with
    | .ok ts => ts
    | .error _ => []

theorem tokensAt_of_resume {count : Nat} {c : Continuation} {ts : List Continuation}
    (hc : c ≠ .done) (h : m.resume count c = .ok ts) : m.tokensAt count c = ts := by
  cases c with
  | done => exact absurd rfl hc
  | start | resume => simp only [tokensAt, h]

theorem place_ne_done (ts : List Continuation) : m.place ts ≠ .done := by
  rw [place, MergePosition.toContinuation]
  intro h
  cases h

/-- The continuation of a merge leads back to those of its legs. -/
theorem resume_place {ts : List Continuation} (hlen : ts.length < 2 ^ 64)
    (hfit : ∀ t ∈ ts, t.toBytes.length < 2 ^ 64) :
    m.resume ts.length (m.place ts) = .ok ts := by
  rw [resume, place, MergePosition.position_toContinuation m.planHash hlen hfit]
  simp only [MergePosition.continuations_of]
  rw [if_neg (by rw [MergePosition.of]; exact fun h => h rfl), if_neg (fun h => h rfl)]

/-- The continuation is one of a merge whose legs go on at some continuations. -/
def IsPlaceOf (Ds : List (Reading α)) (c : Continuation) : Prop :=
  ∃ ts, List.Forall₂ (fun D t => D.issued t) Ds ts ∧ c = m.place ts ∧
    m.resume Ds.length c = .ok ts

theorem forall₂_issued_tokensAt {Ds : List (Reading α)} {c : Continuation}
    (h : c = .start ∨ c = .done ∨ m.IsPlaceOf Ds c) :
    List.Forall₂ (fun D t => D.issued t) Ds (m.tokensAt Ds.length c) := by
  have replicate {t : Continuation} (ht : ∀ D : Reading α, D.issued t) (Ds : List (Reading α)) :
      List.Forall₂ (fun D t => D.issued t) Ds (List.replicate Ds.length t) := by
    induction Ds with
    | nil => exact .nil
    | cons D Ds ih => exact .cons (ht D) ih
  rcases h with rfl | rfl | ⟨ts, hts, rfl, hr⟩
  · exact replicate (fun D => D.issued_start) Ds
  · exact replicate (fun D => D.issued_done) Ds
  · rwa [m.tokensAt_of_resume (m.place_ne_done ts) hr]

theorem eq_exhausted_of_mem_aheadOf {Ds : List (Reading α)} {q : Prospect α}
    (h : q ∈ aheadOf Ds (List.replicate Ds.length .done)) : q = .exhausted := by
  induction Ds with
  | nil => cases h
  | cons D Ds ih =>
    rcases List.mem_cons.1 h with rfl | h
    · exact D.ahead_done
    · exact ih h

theorem recedes_outlookOf_done {Ds : List (Reading α)} {ts : List Continuation}
    (h : List.Forall₂ (fun D t => D.issued t) Ds ts) :
    (outlookOf Ds ts).Recedes (outlookOf Ds (List.replicate Ds.length .done)) := by
  induction h with
  | nil => exact .nil
  | cons ht _ ih => exact (Reading.recedes_done _ ht).append ih

/-- The continuations of a merge stand for what the merge makes of its legs. -/
def reading (Ds : List (Reading α)) : Reading α where
  issued c := c = .start ∨ c = .done ∨ m.IsPlaceOf Ds c
  ahead c := m.combine (aheadOf Ds (m.tokensAt Ds.length c))
  outlook c := outlookOf Ds (m.tokensAt Ds.length c)
  issued_start := .inl rfl
  issued_done := .inr (.inl rfl)
  ahead_done := combine_of_all_exhausted fun _ hq => eq_exhausted_of_mem_aheadOf hq
  recedes_done h := recedes_outlookOf_done (m.forall₂_issued_tokensAt h)

end Reading

/-! ### The invariant -/

variable {m : Merge α} {Ds : List (Reading α)} {W : World → Prop} {limited fresh : Bool}
  {A : Prospect α} {O : Outlook} {legs : Legs α}

/-- The legs have still ahead what a merge has that set out with a prospect and an outlook. -/
structure Holds (m : Merge α) (Ds : List (Reading α)) (W : World → Prop) (limited fresh : Bool)
    (A : Prospect α) (O : Outlook) (legs : Legs α) : Prop where
  yields : A.Yields limited (m.combine (aheadOf Ds legs.tokens))
  reaches : O.Recedes (outlookOf Ds legs.tokens)
  stands : List.Forall₂ (fun D l => Leg.Stands W m.key D limited
    (fresh = true → O.Advances (outlookOf Ds legs.tokens)) l) Ds legs

namespace Holds

theorem issued (h : Holds m Ds W limited fresh A O legs) :
    List.Forall₂ (fun D t => D.issued t) Ds legs.tokens :=
  List.forall₂_map_right_iff.2 (h.stands.imp fun _ _ hl => hl.issued)

theorem waits_eq_nil (h : Holds m Ds W limited fresh A O legs) : legs.waits = [] := by
  refine List.filterMap_eq_nil_iff.2 fun l hl => ?_
  obtain ⟨D, hD⟩ := exists_of_forall₂_mem h.stands hl
  exact hD.wait?_eq_none

theorem eq_failure_of_fails (h : Holds m Ds W limited fresh A O legs) {q : Prospect α}
    (hq : q ∈ aheadOf Ds legs.tokens) (hf : q.fails m.key = true) : A = .failure := by
  have hy := h.yields
  rw [combine_of_fails hq hf] at hy
  exact hy.eq_failure

theorem mem_aheadOf {i : Nat} {D : Reading α} {l : Leg α} (hD : Ds[i]? = some D)
    (hl : legs[i]? = some l) : D.ahead l.token ∈ aheadOf Ds legs.tokens := by
  have ht : legs.tokens[i]? = some l.token := by rw [tokens, List.getElem?_map, hl, Option.map_some]
  refine List.mem_iff_getElem?.2 ⟨i, ?_⟩
  rw [aheadOf, List.getElem?_zipWith, hD, ht]

/-- A leg with a failure leaves the merge with nothing but a failure. -/
theorem eq_failure_of_error? (h : Holds m Ds W limited fresh A O legs) {l : Leg α}
    (hl : l ∈ legs) {e : CursorError} (he : l.error? = some e) : A = .failure := by
  obtain ⟨i, hi⟩ := List.mem_iff_getElem?.1 hl
  obtain ⟨D, hD, hs⟩ := exists_of_forall₂_getElem? h.stands hi
  exact h.eq_failure_of_fails (mem_aheadOf hD hi) (hs.fails_of_error? he)

/-- Asking a leg for its next row keeps the invariant. -/
theorem set (h : Holds m Ds W limited fresh A O legs) {i : Nat} {D : Reading α} {l l' : Leg α}
    (hD : Ds[i]? = some D) (hl : legs[i]? = some l)
    (ha : Leg.Answered W m.key D limited
      (fresh = true → O.Advances (outlookOf Ds legs.tokens)) l.token l') :
    Holds m Ds W limited fresh A O (legs.set i l') := by
  have ht : legs.tokens[i]? = some l.token := by rw [tokens, List.getElem?_map, hl, Option.map_some]
  obtain ⟨hrecedes, hadvances⟩ := outlookOf_set hD ht ha.reaches
  have hq : (aheadOf Ds legs.tokens)[i]? = some (D.ahead l.token) := by
    rw [aheadOf, List.getElem?_zipWith, hD, ht]
  have moved : (fresh = true → O.Advances (outlookOf Ds legs.tokens)) →
      fresh = true → O.Advances (outlookOf Ds (tokens (legs.set i l'))) := by
    rw [tokens_set]
    exact fun hm hf => (hm hf).trans_recedes hrecedes
  refine ⟨?_, ?_, ?_⟩
  · rw [tokens_set, aheadOf_set hD]
    exact h.yields.trans (combine_set hq ha.yields)
  · rw [tokens_set]
    exact h.reaches.trans hrecedes
  · refine forall₂_set (h.stands.imp fun _ _ hs => hs.mono moved) hD
      (ha.stands moved fun hp _ => ?_)
    rw [tokens_set]
    exact h.reaches.trans_advances (hadvances hp)

/-! ### Reading ahead -/

/-- Asking the legs whose next rows were not asked for: all of them have answered then, or there is
a failure. -/
theorem read (h : Holds m Ds W limited fresh A O legs) {places : List Nat}
    (hp : ∀ i t source, legs[i]? = some (.unread t source) → i ∈ places)
    (hf : legs.fault? = none) {w : World} (hw : W w) :
    W (Legs.read m.key places legs w).1 ∧
      match (Legs.read m.key places legs w).2 with
      | .error _ => A = .failure
      | .ok legs' => Holds m Ds W limited fresh A O legs' ∧ ∀ l ∈ legs', l.IsSettled := by
  induction places generalizing legs w with
  | nil =>
    have hsource : ∀ l ∈ legs, l.source? = none := by
      intro l hl
      obtain ⟨i, hi⟩ := List.mem_iff_getElem?.1 hl
      obtain ⟨D, hs⟩ := exists_of_forall₂_mem h.stands hl
      cases hs with
      | unread => exact absurd (hp i _ _ hi) List.not_mem_nil
      | front | dry | limit | failed => rfl
    exact ⟨hw, h, fun l hl => ⟨hsource l hl, error?_eq_none hsource hf l hl⟩⟩
  | cons place places ih =>
    rw [Legs.read]
    cases hl : legs[place]? with
    | none =>
      refine ih h (fun i t source hi => ?_) hf hw
      rcases List.mem_cons.1 (hp i t source hi) with rfl | hmem
      · rw [hl] at hi
        cases hi
      · exact hmem
    | some l =>
      obtain ⟨D, hD, hs⟩ := exists_of_forall₂_getElem? h.stands hl
      obtain ⟨hw', ha⟩ := Leg.answered_read hs hw
      have hset := h.set hD hl ha
      simp only
      cases hfault : fault? (List.set legs place (l.read m.key w).2) with
      | some e =>
        obtain ⟨l', hl', he⟩ := exists_of_fault?_eq_some hfault
        exact ⟨hw', hset.eq_failure_of_error? hl' he⟩
      | none =>
        refine ih hset (fun i t source hi => ?_) hfault hw'
        by_cases hip : place = i
        · subst hip
          have hlt : place < legs.length := (List.getElem?_eq_some_iff.1 hl).1
          rw [List.getElem?_set_self hlt] at hi
          have hnone := ha.source
          rw [Option.some.inj hi] at hnone
          cases hnone
        · rw [List.getElem?_set_ne hip] at hi
          exact List.mem_of_ne_of_mem (Ne.symm hip) (hp i t source hi)

/-! ### Using rows -/

theorem reachEach_useIf (h : Holds m Ds W limited fresh A O legs) (p : Tuple → Bool) :
    ReachEach Ds legs.tokens (tokens (legs.useIf p)) := by
  intro i D t t' hD ht ht'
  rw [tokens, List.getElem?_map] at ht
  rw [tokens, Legs.useIf, List.getElem?_map, List.getElem?_map] at ht'
  obtain ⟨l, hl, rfl⟩ := Option.map_eq_some_iff.1 ht
  rw [hl] at ht'
  cases ht'
  obtain ⟨D', hD', hs⟩ := exists_of_forall₂_getElem? h.stands hl
  rw [hD] at hD'
  cases hD'
  exact hs.reaches_useIf p

/-- Using a row gets the merge further. -/
theorem advances_useIf (h : Holds m Ds W limited fresh A O legs) {p : Tuple → Bool} {v : α}
    (hv : legs.valueIf p = some v) :
    (outlookOf Ds legs.tokens).Advances (outlookOf Ds (tokens (legs.useIf p))) := by
  obtain ⟨l, hmem, hl⟩ := List.exists_of_findSome?_eq_some hv
  obtain ⟨i, hi⟩ := List.mem_iff_getElem?.1 hmem
  obtain ⟨D, hD, hs⟩ := exists_of_forall₂_getElem? h.stands hi
  refine advances_outlookOf ?_ (h.reachEach_useIf p) hD ?_ ?_ (hs.passes_useIf p hl)
  · rw [tokens, tokens, Legs.useIf, List.length_map, List.length_map, List.length_map]
  · rw [tokens, List.getElem?_map, hi, Option.map_some]
  · rw [tokens, Legs.useIf, List.getElem?_map, List.getElem?_map, hi, Option.map_some,
      Option.map_some]

theorem stands_useIf (h : Holds m Ds W limited fresh A O legs) (p : Tuple → Bool) {moved : Prop}
    (hm : moved) :
    List.Forall₂ (fun D l => Leg.Stands W m.key D limited moved l) Ds (legs.useIf p) :=
  List.forall₂_map_right_iff.2 (h.stands.imp fun _ _ hs => hs.useIf p hm)

/-- The merge goes on from rows that were used, with what is ahead of them as its prospect. -/
theorem of_useIf (h : Holds m Ds W limited fresh A O legs) {p : Tuple → Bool} {v : α}
    (hv : legs.valueIf p = some v) {fresh' : Bool} {A' : Prospect α} {O' : Outlook}
    (hA : A'.Yields limited (m.combine (aheadOf Ds (tokens (legs.useIf p)))))
    (hO : O'.Recedes (outlookOf Ds (tokens (legs.useIf p))))
    (hm : fresh' = true → O = O') : Holds m Ds W limited fresh' A' O' (legs.useIf p) :=
  ⟨hA, hO, h.stands_useIf p fun hf => hm hf ▸ h.reaches.trans_advances (h.advances_useIf hv)⟩

end Holds

/-! ### Legs that show what is ahead -/

section Shows

variable {key : α → Except CursorError Tuple}

theorem shows_or_fails {moved : Prop}
    (h : List.Forall₂ (fun D l => Leg.Stands W key D limited moved l) Ds legs)
    (hs : ∀ l ∈ legs, l.IsSettled) (hl : ∀ l ∈ legs, l.limit? = none) :
    List.Forall₂ (Leg.Shows key) Ds legs ∨
      limited = true ∧ ∃ q ∈ aheadOf Ds legs.tokens, q.fails key = true := by
  induction h with
  | nil => exact .inl .nil
  | @cons D l Ds legs hd _ ih =>
    rcases hd.shows_or_fails (hs l List.mem_cons_self) (hl l List.mem_cons_self) with hd | ⟨hu, hd⟩
    · rcases ih (fun l' h => hs l' (List.mem_cons_of_mem _ h))
        (fun l' h => hl l' (List.mem_cons_of_mem _ h)) with ih | ⟨hu, q, hq, hf⟩
      · exact .inl (.cons hd ih)
      · exact .inr ⟨hu, q, List.mem_cons_of_mem _ hq, hf⟩
    · exact .inr ⟨hu, _, List.mem_cons_self, hd⟩

theorem any_fails_of_shows (h : List.Forall₂ (Leg.Shows key) Ds legs) :
    (aheadOf Ds legs.tokens).any (·.fails key) = false := by
  induction h with
  | nil => rfl
  | cons hd _ ih => exact (congrArg₂ or hd.fails ih : _)

theorem map_key?_of_shows (h : List.Forall₂ (Leg.Shows key) Ds legs) :
    (aheadOf Ds legs.tokens).map (·.key? key) = legs.map Leg.key? := by
  induction h with
  | nil => rfl
  | cons hd _ ih => exact congrArg₂ List.cons hd.key? ih

theorem findSome?_of_shows (h : List.Forall₂ (Leg.Shows key) Ds legs) (p : Tuple → Bool) :
    (aheadOf Ds legs.tokens).findSome? (·.valueIf key p) = legs.valueIf p := by
  induction h with
  | nil => rfl
  | @cons D l Ds legs hd _ ih =>
    show ((D.ahead l.token) :: aheadOf Ds (tokens legs)).findSome? _ = List.findSome? _ (l :: legs)
    rw [List.findSome?_cons, List.findSome?_cons, hd.valueIf p, ih]
    rfl

theorem aheadOf_useIf_of_shows (h : List.Forall₂ (Leg.Shows key) Ds legs) (p : Tuple → Bool) :
    aheadOf Ds (tokens (legs.useIf p)) = useEach key p (aheadOf Ds legs.tokens) := by
  induction h with
  | nil => rfl
  | cons hd _ ih => exact congrArg₂ List.cons (hd.useIf p) ih

end Shows

theorem exists_of_limit?_eq_some {r : StopReason} (h : legs.limit? = some r) :
    r.isLimit = true ∧ ∃ l ∈ legs, l.limit? = some r := by
  obtain ⟨l, hl, hr⟩ := List.exists_of_findSome?_eq_some h
  exact ⟨(Option.filter_eq_some_iff.1 hr).2, l, hl, hr⟩

theorem Holds.under_of_limit? (h : Holds m Ds W limited fresh A O legs) {l : Leg α} (hl : l ∈ legs)
    {r : StopReason} (hr : l.limit? = some r) :
    limited = true ∧ (fresh = true → O.Advances (outlookOf Ds legs.tokens)) := by
  obtain ⟨D, hs⟩ := exists_of_forall₂_mem h.stands hl
  cases hs with
  | limit under _ _ has_moved => exact ⟨under, has_moved⟩
  | unread | front | dry | failed => cases hr

/-! ### Verdicts -/

theorem limit?_of_stop {r : StopReason} (h : m.verdict legs = .stop r) (hr : r.isLimit = true) :
    legs.limit? = some r := by
  unfold verdict at h
  split at h
  · split at h
    · cases h
      assumption
    · cases h
      cases hr
    · cases h
  · split at h
    · cases h
      cases hr
    · split at h
      · cases h
        assumption
      · cases h
        cases hr
      · split at h <;> cases h

theorem limit?_of_not_stop (h : ∀ r, m.verdict legs ≠ .stop r) : legs.limit? = none := by
  cases hl : legs.limit? with
  | none => rfl
  | some r =>
    unfold verdict at h
    rw [hl] at h
    split at h
    · exact absurd rfl (h r)
    · split at h
      · exact absurd rfl (h _)
      · exact absurd rfl (h r)

theorem exhausted_of_stop {r r' : StopReason} (h : m.verdict legs = .stop r)
    (hr : r.isLimit = false) (hl : legs.limit? = some r') :
    m.operation = .intersection ∧ ∃ l ∈ legs, l.isExhausted = true := by
  have hlimit := (exists_of_limit?_eq_some hl).1
  unfold verdict at h
  rw [hl] at h
  split at h
  · cases h
    rw [hlimit] at hr
    cases hr
  · rename_i hop
    split at h
    · rename_i hex
      exact ⟨hop, List.any_eq_true.1 hex⟩
    · cases h
      rw [hlimit] at hr
      cases hr

section Verdict

variable (h : Holds m Ds W limited fresh A O legs) (hs : ∀ l ∈ legs, l.IsSettled)

include h hs

theorem Holds.shows_or_failure (hl : legs.limit? = none) :
    List.Forall₂ (Leg.Shows m.key) Ds legs ∨ limited = true ∧ A = .failure := by
  rcases shows_or_fails h.stands hs (List.findSome?_eq_none_iff.1 hl) with hsh | ⟨hu, q, hq, hf⟩
  · exact .inl hsh
  · exact .inr ⟨hu, h.eq_failure_of_fails hq hf⟩

/-- Where the legs show what is ahead of them, a step of the merge is one of `combine`. -/
theorem Holds.yields_useIf (hl : legs.limit? = none) {p : Tuple → Bool} {v : α}
    (hv : legs.valueIf p = some v) {f : Prospect α → Prospect α}
    (hstep : ∀ qs : List (Prospect α), qs.any (·.fails m.key) = false →
      qs.map (·.key? m.key) = legs.map Leg.key? → qs.findSome? (·.valueIf m.key p) = some v →
        m.combine qs = f (m.combine (useEach m.key p qs))) :
    A.Yields limited (f (m.combine (aheadOf Ds (tokens (legs.useIf p))))) := by
  rcases h.shows_or_failure hs hl with hsh | hA
  · have hy := h.yields
    rw [hstep _ (any_fails_of_shows hsh) (map_key?_of_shows hsh)
      (by rw [findSome?_of_shows hsh, hv])] at hy
    rwa [aheadOf_useIf_of_shows hsh]
  · exact .inr hA

theorem Holds.yields_take (hl : legs.limit? = none) {k : Tuple} {v : α}
    (hc : m.choice (legs.map Leg.key?) = .take k) (hv : legs.valueIf (· = k) = some v) :
    A.Yields limited (.row v (m.combine (aheadOf Ds (tokens (legs.useIf (· = k)))))) := by
  refine h.yields_useIf hs hl hv (f := .row v) fun qs hfails hkeys hvalue => ?_
  rw [← hkeys] at hc
  exact combine_of_take hfails hc hvalue

theorem Holds.yields_pass (hl : legs.limit? = none) {k : Tuple} {v : α}
    (hc : m.choice (legs.map Leg.key?) = .pass k) (hv : legs.valueIf (· ≠ k) = some v) :
    A.Yields limited (m.combine (aheadOf Ds (tokens (legs.useIf (· ≠ k))))) := by
  refine h.yields_useIf hs hl hv (f := id) fun qs hfails hkeys hvalue => ?_
  rw [← hkeys] at hc
  exact combine_of_pass hfails hc hvalue

theorem Holds.yields_stop {r : StopReason} (hv : m.verdict legs = .stop r)
    (hr : r.isLimit = false) : A.Yields limited .exhausted := by
  have hy := h.yields
  cases hl : legs.limit? with
  | none =>
    rw [verdict_eq_choice hs hl] at hv
    rcases h.shows_or_failure hs hl with hsh | hA
    · rw [← map_key?_of_shows hsh] at hv
      rwa [combine_of_stop (any_fails_of_shows hsh) hv] at hy
    · exact .inr hA
  | some r' =>
    -- an intersection one leg of which has ended, while another one stopped for a limit
    obtain ⟨hop, l, hmem, hex⟩ := exhausted_of_stop hv hr hl
    obtain ⟨i, hi⟩ := List.mem_iff_getElem?.1 hmem
    obtain ⟨D, hD, hst⟩ := exists_of_forall₂_getElem? h.stands hi
    obtain ⟨-, l', hl', hlimit⟩ := exists_of_limit?_eq_some hl
    have hq : .exhausted ∈ aheadOf Ds legs.tokens := by
      have hq := Holds.mem_aheadOf hD hi
      cases hst with
      | dry => rwa [show D.ahead (Leg.token (.ended (α := α) .sourceExhausted .done)) = .exhausted
          from D.ahead_done] at hq
      | @limit r'' _ _ isLimit =>
        have : r'' = .sourceExhausted := Option.some.inj (of_decide_eq_true hex)
        rw [this] at isLimit
        cases isLimit
      | unread | front | failed => cases hex
    rcases combine_of_exhausted_mem hop hq with hc | hc
    · rw [hc] at hy
      exact .inr ⟨(h.under_of_limit? hl' hlimit).1, hy.eq_failure⟩
    · rwa [hc] at hy

end Verdict

theorem valueIf_of_mem_key {p : Tuple → Bool} {k : Tuple} (h : some k ∈ legs.map Leg.key?)
    (hk : p k = true) : ∃ v, legs.valueIf p = some v := by
  obtain ⟨l, hl, hlk⟩ := List.mem_map.1 h
  cases hv : legs.valueIf p with
  | some v => exact ⟨v, rfl⟩
  | none =>
    have hnone := List.findSome?_eq_none_iff.1 hv l hl
    cases l with
    | front t v k' next rest =>
      cases hlk
      rw [Leg.valueIf, if_pos hk] at hnone
      cases hnone
    | unread | waiting | ended | failed => cases hlk

/-! ### The merge -/

/-- The continuations of the merge are read back as what they were made from. -/
def Readable (m : Merge α) (Ds : List (Reading α)) : Prop :=
  ∀ ts, List.Forall₂ (fun D t => D.issued t) Ds ts → m.resume Ds.length (m.place ts) = .ok ts

section Place

variable {ts : List Continuation} (hm : m.Readable Ds)
  (hts : List.Forall₂ (fun D t => D.issued t) Ds ts)

include hm hts

theorem issued_place : (m.reading Ds).issued (m.place ts) := .inr (.inr ⟨ts, hts, rfl, hm ts hts⟩)

theorem tokensAt_place : m.tokensAt Ds.length (m.place ts) = ts :=
  m.tokensAt_of_resume (m.place_ne_done ts) (hm ts hts)

theorem ahead_place : (m.reading Ds).ahead (m.place ts) = m.combine (aheadOf Ds ts) := by
  show m.combine (aheadOf Ds (m.tokensAt Ds.length (m.place ts))) = _
  rw [tokensAt_place hm hts]

theorem outlook_place : (m.reading Ds).outlook (m.place ts) = outlookOf Ds ts := by
  show outlookOf Ds (m.tokensAt Ds.length (m.place ts)) = _
  rw [tokensAt_place hm hts]

end Place

section Steps

variable {c : Continuation} (hm : m.Readable Ds)
  (h : Holds m Ds W limited fresh ((m.reading Ds).ahead c) ((m.reading Ds).outlook c) legs)

include hm h

theorem reaches_position : (m.reading Ds).Reaches c (m.position legs) := by
  show Outlook.Recedes _ ((m.reading Ds).outlook (m.place legs.tokens))
  rw [outlook_place hm h.issued]
  exact h.reaches

theorem yields_position :
    ((m.reading Ds).ahead c).Yields limited ((m.reading Ds).ahead (m.position legs)) := by
  show Prospect.Yields _ _ ((m.reading Ds).ahead (m.place legs.tokens))
  rw [ahead_place hm h.issued]
  exact h.yields

/-- Where legs have settled and call for an end, the merge ends in keeping with its reading. -/
theorem follows_stop (hs : ∀ l ∈ legs, l.IsSettled) {r : StopReason}
    (hv : m.verdict legs = .stop r) :
    Follows W (m.reading Ds) limited (stopFor r (m.position legs)) fresh c := by
  cases hr : r.isLimit with
  | true =>
    obtain ⟨-, l, hl, hlr⟩ := exists_of_limit?_eq_some (limit?_of_stop hv hr)
    obtain ⟨under, moved⟩ := h.under_of_limit? hl hlr
    have passes (hf : fresh = true) : (m.reading Ds).Passes c (m.position legs) := by
      show Outlook.Advances _ ((m.reading Ds).outlook (m.place legs.tokens))
      rw [outlook_place hm h.issued]
      exact moved hf
    rw [stopFor, if_pos hr]
    exact .limit under hr (issued_place hm h.issued) (reaches_position hm h) passes
      (yields_position hm h)
  | false =>
    rw [stopFor, hr]
    exact .dry (h.yields_stop hs hv hr)

/-- Rows that were used leave the merge at a continuation from which the invariant holds anew. -/
theorem holds_useIf {p : Tuple → Bool} {v : α} (hv : legs.valueIf p = some v) :
    Holds m Ds W limited false ((m.reading Ds).ahead (m.position (legs.useIf p)))
      ((m.reading Ds).outlook (m.position (legs.useIf p))) (legs.useIf p) := by
  have used : Holds m Ds W limited false _ _ (legs.useIf p) :=
    h.of_useIf hv (.refl _) (.refl _) nofun
  have hts := used.issued
  refine h.of_useIf hv ?_ ?_ nofun
  · show Prospect.Yields _ ((m.reading Ds).ahead (m.place (tokens (legs.useIf p)))) _
    rw [ahead_place hm hts]
    exact .refl _
  · show Outlook.Recedes ((m.reading Ds).outlook (m.place (tokens (legs.useIf p)))) _
    rw [outlook_place hm hts]
    exact .refl _

/-- A row that the keys call for is the next one ahead. -/
theorem follows_take (hs : ∀ l ∈ legs, l.IsSettled) (hl : legs.limit? = none) {k : Tuple} {v : α}
    (hc : m.choice (legs.map Leg.key?) = .take k) (taken : legs.valueIf (· = k) = some v)
    {rest : Unit → Cursor α}
    (hrest : Follows W (m.reading Ds) limited (rest ()) false (m.position (legs.useIf (· = k)))) :
    Follows W (m.reading Ds) limited (.row v (m.position (legs.useIf (· = k))) rest) fresh c := by
  have hts := (holds_useIf hm h taken).issued
  refine .row (issued_place hm hts) ?_ ?_ hrest
  · show Outlook.Advances _ ((m.reading Ds).outlook (m.place _))
    rw [outlook_place hm hts]
    exact h.reaches.trans_advances (h.advances_useIf taken)
  · show Prospect.Yields _ _ (.row v ((m.reading Ds).ahead (m.place _)))
    rw [ahead_place hm hts]
    exact h.yields_take hs hl hc taken

end Steps

theorem Holds.isSettled (h : Holds m Ds W limited fresh A O legs)
    (he : ∀ l ∈ legs, l.error? = none) {w : World} (due : legs.due [] w = []) :
    ∀ l ∈ legs, l.IsSettled := by
  intro l hl
  obtain ⟨i, hi⟩ := List.mem_iff_getElem?.1 hl
  obtain ⟨D, hst⟩ := exists_of_forall₂_mem h.stands hl
  refine ⟨?_, he l hl⟩
  cases hst with
  | unread => exact nomatch due ▸ mem_due hi w
  | front | dry | limit | failed => rfl

theorem error?_of_mem_useIf {p : Tuple → Bool} (he : ∀ l ∈ legs, l.error? = none) :
    ∀ l ∈ legs.useIf p, l.error? = none := by
  intro l hl
  obtain ⟨l', hl', rfl⟩ := List.mem_map.1 hl
  rw [l'.error?_useIf p]
  exact he l' hl'

/-- The rows of a merge are those ahead, whatever is read ahead or passed over.  The induction is on
the legs, which every step takes further. -/
theorem follows_rows (hm : m.Readable Ds) (legs : Legs α) {fresh : Bool} {c : Continuation}
    (h : Holds m Ds W limited fresh ((m.reading Ds).ahead c) ((m.reading Ds).outlook c) legs)
    (he : ∀ l ∈ legs, l.error? = none) :
    Follows W (m.reading Ds) limited (m.rows [] legs) fresh c := by
  induction legs using (Legs.wellFoundedRelation (α := α)).wf.induction generalizing fresh c with
  | h legs ih =>
    rw [rows]
    refine .consult fun w hw => ?_
    split
    · rename_i place places due
      have hp : ∀ i t source, legs[i]? = some (.unread t source) → i ∈ place :: places :=
        fun i t source hi => due ▸ mem_due hi w
      have hread := h.read hp (fault?_eq_none he) hw
      split
      · rename_i w' e reading
        rw [reading] at hread
        exact .commit hread.1 (.fail hread.2)
      · rename_i w' legs' reading
        rw [reading] at hread
        obtain ⟨hw', h', hs⟩ := hread
        have hbelow := Legs.below_read (Legs.isDue_of_due_eq_cons due) reading
        rw [h'.waits_eq_nil]
        exact .commit hw' (ih legs' hbelow h' fun l hl => (hs l hl).2)
    · rename_i due
      have hs := h.isSettled he due
      split
      · rename_i r hverdict
        exact follows_stop hm h hs hverdict
      · rename_i k hverdict
        have hl : legs.limit? = none := by
          refine limit?_of_not_stop (m := m) fun r hr => ?_
          rw [hverdict] at hr
          cases hr
        rw [verdict_eq_choice hs hl] at hverdict
        split
        · rename_i v taken
          exact follows_take hm h hs hl hverdict taken
            (ih _ (Legs.below_useIf taken) (holds_useIf hm h taken) (error?_of_mem_useIf he))
        · -- the key that was chosen is that of a leg
          rename_i hnone
          obtain ⟨v, hv⟩ :=
            valueIf_of_mem_key (p := (· = k)) (mem_of_choice_take m hverdict) (decide_eq_true rfl)
          rw [hnone] at hv
          cases hv
      · rename_i k hverdict
        have hl : legs.limit? = none := by
          refine limit?_of_not_stop (m := m) fun r hr => ?_
          rw [hverdict] at hr
          cases hr
        rw [verdict_eq_choice hs hl] at hverdict
        split
        · rename_i v passed
          have hy := h.yields_pass hs hl hverdict passed
          have hr := h.reaches.trans (h.advances_useIf passed).1
          exact ih _ (Legs.below_useIf passed) (h.of_useIf passed hy hr fun _ => rfl)
            (error?_of_mem_useIf he)
        · -- rows are passed over only where keys differ
          rename_i hnone
          obtain ⟨k', hk', hne⟩ := exists_of_choice_pass m hverdict
          obtain ⟨v, hv⟩ := valueIf_of_mem_key (p := (· ≠ k)) hk' (decide_eq_true hne)
          rw [hnone] at hv
          cases hv

/-! ### Opening -/

/-- An opener follows a reading if it opens cursors at all continuations of the reading. -/
def Opens (W : World → Prop) (limited : Bool) (D : Reading α) (opener : OpenLeg α) : Prop :=
  ∀ t, D.issued t → ∃ source, opener t = .ok source ∧ Follows W D limited source true t

theorem exists_legs {openers : List (OpenLeg α)} {ts : List Continuation}
    (key : α → Except CursorError Tuple) (moved : Prop)
    (ho : List.Forall₂ (Opens W limited) Ds openers)
    (hts : List.Forall₂ (fun D t => D.issued t) Ds ts) :
    ∃ legs : Legs α,
      ((openers.zip ts).mapM fun (opener, token) => openLeg opener token) = .ok legs ∧
        legs.tokens = ts ∧ (∀ l ∈ legs, l.error? = none) ∧
        List.Forall₂ (fun D l => Leg.Stands W key D limited moved l) Ds legs := by
  induction ho generalizing ts with
  | nil =>
    cases hts
    exact ⟨[], rfl, rfl, nofun, .nil⟩
  | @cons D opener Ds openers hD _ ih =>
    cases hts with
    | @cons _ t _ ts ht hts =>
      obtain ⟨legs, hlegs, htokens, he, hs⟩ := ih hts
      have hleg : ∃ l : Leg α, openLeg opener t = .ok l ∧ l.token = t ∧ l.error? = none ∧
          Leg.Stands W key D limited moved l := by
        cases hd : t.isDone with
        | true =>
          obtain rfl : t = .done := by cases t <;> first | rfl | cases hd
          exact ⟨_, rfl, rfl, rfl, .dry⟩
        | false =>
          obtain ⟨source, hsource, hfollows⟩ := hD t ht
          refine ⟨.unread t source, ?_, rfl, rfl, .unread ht hfollows nofun⟩
          rw [openLeg, hd, hsource]
          rfl
      obtain ⟨l, hl, htoken, hle, hst⟩ := hleg
      refine ⟨l :: legs, ?_, congrArg₂ List.cons htoken htokens, fun l' hl' => ?_, .cons hst hs⟩
      · rw [List.zip_cons_cons, List.mapM_cons, hlegs]
        show (openLeg opener t >>= _) = _
        rw [hl]
        rfl
      · rcases List.mem_cons.1 hl' with rfl | hl'
        · exact hle
        · exact he l' hl'

/-- A merge that is opened at a continuation hands out what is ahead of it. -/
theorem follows_openAt (hm : m.Readable Ds) {openers : List (OpenLeg α)}
    (ho : List.Forall₂ (Opens W limited) Ds openers) {c : Continuation}
    (hc : (m.reading Ds).issued c) :
    ∃ rows, m.openAt openers c = .ok rows ∧ Follows W (m.reading Ds) limited rows true c := by
  by_cases hd : c = .done
  · subst hd
    exact ⟨_, rfl, .dry (.inl (m.reading Ds).ahead_done)⟩
  · have hresume : m.resume Ds.length c = .ok (m.tokensAt Ds.length c) := by
      rcases hc with rfl | rfl | ⟨ts, -, rfl, hr⟩
      · rfl
      · exact absurd rfl hd
      · rw [hr, m.tokensAt_of_resume (m.place_ne_done ts) hr]
    have hts := m.forall₂_issued_tokensAt hc
    obtain ⟨legs, hlegs, htokens, he, hs⟩ := exists_legs m.key
      (true = true → ((m.reading Ds).outlook c).Advances (outlookOf Ds (m.tokensAt Ds.length c)))
      ho hts
    rw [← htokens] at hs
    refine ⟨m.rows [] legs, ?_, follows_rows hm legs ⟨?_, ?_, hs⟩ he⟩
    · have hdone : c.isDone = false := by cases c <;> first | rfl | exact absurd rfl hd
      rw [openAt, hdone, ← ho.length_eq, hresume]
      exact congrArg (fun r : Except CursorError (Legs α) => r.map (m.rows [])) hlegs
    · rw [htokens]
      exact .refl _
    · rw [htokens]
      exact .refl _

end Merge

end ResumableQuery.Cursor
