import ResumableQuery.Proofs.Cursor.Combine
import ResumableQuery.Proofs.Cursor.Follows

/-!
# Legs that stand for readings

Each leg of a merge follows a reading of its own.  This file says what a leg may look like between
two steps of the merge (`Leg.Stands`), and that asking legs for their next rows and using rows keep
them so: nothing that was ahead of a leg gets lost, and its continuation never moves back.  A leg
that stopped for a limit has moved the merge, by itself or together with the other legs, which is
the proposition `moved` below.
-/

namespace ResumableQuery.Cursor

open Prospect

variable {W : World → Prop} {limited : Bool} {key : α → Except CursorError Tuple}

/-! ### One leg -/

namespace Leg

/-- The leg follows a reading from its continuation.  A leg that is not fresh any more, or that has
stopped for a limit, has moved the merge. -/
inductive Stands (W : World → Prop) (key : α → Except CursorError Tuple) (D : Reading α)
    (limited : Bool) (moved : Prop) : Leg α → Prop
  | unread {t source fresh} (issued : D.issued t) (follows : Follows W D limited source fresh t)
      (stale : fresh = false → moved) : Stands W key D limited moved (unread t source)
  | front {t v k next rest} (issued : D.issued t) (issued_next : D.issued next)
      (passes : D.Passes t next) (yields : (D.ahead t).Yields limited (.row v (D.ahead next)))
      (key_eq : key v = .ok k) (follows : Follows W D limited rest false next) :
      Stands W key D limited moved (front t v k next rest)
  | dry : Stands W key D limited moved (ended .sourceExhausted .done)
  | limit {r t} (under : limited = true) (isLimit : r.isLimit = true) (issued : D.issued t)
      (has_moved : moved) : Stands W key D limited moved (ended r t)
  | failed {t e} (issued : D.issued t) (fails : (D.ahead t).fails key = true) :
      Stands W key D limited moved (failed t e)

namespace Stands

variable {D : Reading α} {moved moved' : Prop} {l : Leg α}

theorem issued (h : Stands W key D limited moved l) : D.issued l.token := by
  cases h with
  | dry => exact D.issued_done
  | unread issued | front issued | limit _ _ issued | failed issued => exact issued

theorem mono (h : Stands W key D limited moved l) (hm : moved → moved') :
    Stands W key D limited moved' l := by
  cases h with
  | unread issued follows stale => exact .unread issued follows fun hf => hm (stale hf)
  | front issued issued_next passes yields key_eq follows =>
    exact .front issued issued_next passes yields key_eq follows
  | dry => exact .dry
  | limit under isLimit issued has_moved => exact .limit under isLimit issued (hm has_moved)
  | failed issued fails => exact .failed issued fails

theorem wait?_eq_none (h : Stands W key D limited moved l) : l.wait? = none := by
  cases h <;> rfl

/-- A leg with a failure has nothing but the failure ahead. -/
theorem fails_of_error? {e : CursorError} (h : Stands W key D limited moved l)
    (he : l.error? = some e) : (D.ahead l.token).fails key = true := by
  cases h with
  | failed _ fails => exact fails
  | unread | front | dry | limit => cases he

end Stands

/-- What a leg has become by being asked for a row. -/
structure Answered (W : World → Prop) (key : α → Except CursorError Tuple) (D : Reading α)
    (limited : Bool) (moved : Prop) (t : Continuation) (l : Leg α) : Prop where
  source : l.source? = none
  yields : (D.ahead t).Yields limited (D.ahead l.token)
  reaches : D.Reaches t l.token
  stands {moved' : Prop} : (moved → moved') → (D.Passes t l.token → moved') →
    Stands W key D limited moved' l

theorem answered_of_follows {D : Reading α} {moved : Prop} {t : Continuation} {source : Cursor α}
    {fresh : Bool} (issued : D.issued t) (h : Follows W D limited source fresh t)
    (stale : fresh = false → moved) {w : World} (hw : W w) :
    W (source.poll w).1 ∧
      Answered W key D limited moved t (answered key t (source.poll w).2) := by
  induction h generalizing w with
  | @row v next rest _ t issued_next passes yields follows =>
    refine ⟨hw, ?_⟩
    simp only [poll, answered]
    cases hk : key v with
    | ok k =>
      exact ⟨rfl, .refl _, .refl _, fun _ _ => .front issued issued_next passes yields hk follows⟩
    | error e =>
      refine ⟨rfl, .refl _, .refl _, fun _ _ => .failed issued ?_⟩
      rcases yields with hy | ⟨-, hy⟩
      · rw [hy, Prospect.fails, hk]
        rfl
      · rw [hy, Prospect.fails]
  | @limit r t' fresh _ under isLimit issued' reaches passes yields =>
    refine ⟨hw, rfl, yields, reaches, fun hm hp => .limit under isLimit issued' ?_⟩
    cases fresh with
    | true => exact hp (passes rfl)
    | false => exact hm (stale rfl)
  | @dry _ c yields =>
    have hy : (D.ahead c).Yields limited (D.ahead .done) := by rwa [D.ahead_done]
    exact ⟨hw, rfl, hy, D.recedes_done issued, fun _ _ => .dry⟩
  | @fail e _ c failure =>
    refine ⟨hw, rfl, .refl _, .refl _, fun _ _ => .failed issued ?_⟩
    rw [failure, Prospect.fails]
  | consult _ ih => exact ih _ hw issued stale hw
  | commit world _ ih => exact ih issued stale world

theorem answered_read {D : Reading α} {moved : Prop} {l : Leg α}
    (h : Stands W key D limited moved l) {w : World} (hw : W w) :
    W (l.read key w).1 ∧ Answered W key D limited moved l.token (l.read key w).2 := by
  have same (hl : l.source? = none) :
      W (l.read key w).1 ∧ Answered W key D limited moved l.token (l.read key w).2 := by
    rw [read, hl]
    exact ⟨hw, hl, .refl _, .refl _, fun hm _ => h.mono hm⟩
  cases h with
  | unread issued follows stale => exact answered_of_follows issued follows stale hw
  | front | dry | limit | failed => exact same rfl

/-! ### Using rows -/

section Use

variable {D : Reading α} {moved moved' : Prop} {l : Leg α} (p : Tuple → Bool)

theorem Stands.useIf (h : Stands W key D limited moved l) (hm : moved') :
    Stands W key D limited moved' (l.useIf p) := by
  cases h with
  | front issued issued_next passes yields key_eq follows =>
    rw [Leg.useIf]
    split
    · exact .unread issued_next follows fun _ => hm
    · exact .front issued issued_next passes yields key_eq follows
  | unread issued follows stale => exact .unread issued follows fun _ => hm
  | dry => exact .dry
  | limit under isLimit issued has_moved => exact .limit under isLimit issued hm
  | failed issued fails => exact .failed issued fails

theorem Stands.reaches_useIf (h : Stands W key D limited moved l) :
    D.Reaches l.token (l.useIf p).token := by
  cases h with
  | front _ _ passes =>
    rw [Leg.useIf]
    split
    · exact passes.1
    · exact .refl _
  | unread | dry | limit | failed => exact .refl _

theorem Stands.passes_useIf (h : Stands W key D limited moved l) {v : α}
    (hv : l.valueIf p = some v) : D.Passes l.token (l.useIf p).token := by
  cases h with
  | front _ _ passes =>
    rw [Leg.valueIf] at hv
    split at hv
    · rename_i hp
      rw [Leg.useIf, if_pos hp]
      exact passes
    · cases hv
  | unread | dry | limit | failed => cases hv

theorem error?_useIf (l : Leg α) : (l.useIf p).error? = l.error? := by
  cases l with
  | front =>
    rw [Leg.useIf]
    split <;> rfl
  | unread | waiting | ended | failed => rfl

/-- What is ahead of the leg is what the leg shows. -/
structure Shows (key : α → Except CursorError Tuple) (D : Reading α) (l : Leg α) : Prop where
  fails : (D.ahead l.token).fails key = false
  key? : (D.ahead l.token).key? key = l.key?
  valueIf (p : Tuple → Bool) : (D.ahead l.token).valueIf key p = l.valueIf p
  useIf (p : Tuple → Bool) : D.ahead (l.useIf p).token = (D.ahead l.token).useIf key p

/-- A leg that has a row or ran dry shows what is ahead of it, unless it was spared a failure. -/
theorem Stands.shows_or_fails (h : Stands W key D limited moved l) (hs : IsSettled l)
    (hl : l.limit? = none) :
    Shows key D l ∨ limited = true ∧ (D.ahead l.token).fails key = true := by
  cases h with
  | unread => cases hs.1
  | failed => cases hs.2
  | limit _ isLimit =>
    rw [limit?, reason?, Option.filter_some, if_pos isLimit] at hl
    cases hl
  | dry =>
    have hd : D.ahead (Leg.ended (α := α) .sourceExhausted .done).token = .exhausted := D.ahead_done
    refine .inl ⟨?_, ?_, fun _ => ?_, fun _ => ?_⟩
    · rw [hd, Prospect.fails]
    · rw [hd]
      rfl
    · rw [hd]
      rfl
    · show D.ahead (Leg.ended (α := α) .sourceExhausted .done).token = _
      rw [hd]
      rfl
  | @front t v k next rest issued issued_next passes yields key_eq =>
    rcases yields with hy | ⟨under, hy⟩
    · have hq : D.ahead (Leg.front t v k next rest).token = .row v (D.ahead next) := hy
      refine .inl ⟨?_, ?_, fun p => ?_, fun p => ?_⟩
      · rw [hq, Prospect.fails, key_eq]
        rfl
      · rw [hq, Prospect.key?, key_eq]
        rfl
      · rw [hq, Prospect.valueIf, key_eq]
        rfl
      · rw [hq, Prospect.useIf, key_eq, Leg.useIf]
        show _ = if p k then _ else _
        split
        · rfl
        · exact hy
    · refine .inr ⟨under, ?_⟩
      show (D.ahead t).fails key = true
      rw [hy, Prospect.fails]

end Use

end Leg

/-! ### Legs side by side -/

namespace Legs

/-- What is ahead of the legs, each at its continuation. -/
def aheadOf (Ds : List (Reading α)) (ts : List Continuation) : List (Prospect α) :=
  List.zipWith (fun D t => D.ahead t) Ds ts

/-- The stored pairs that all legs have ahead. -/
def outlookOf (Ds : List (Reading α)) (ts : List Continuation) : Outlook :=
  (List.zipWith (fun D t => D.outlook t) Ds ts).flatten

variable {Ds : List (Reading α)} {D : Reading α}

theorem aheadOf_set {ts : List Continuation} {i : Nat} (hD : Ds[i]? = some D) (t : Continuation) :
    aheadOf Ds (ts.set i t) = (aheadOf Ds ts).set i (D.ahead t) := by
  induction Ds generalizing ts i with
  | nil => cases hD
  | cons D' Ds ih =>
    cases ts with
    | nil => rfl
    | cons t' ts =>
      cases i with
      | zero =>
        cases hD
        rfl
      | succ i => exact congrArg (D'.ahead t' :: ·) (ih hD)

/-- No leg is further back at its second continuation. -/
def ReachEach (Ds : List (Reading α)) (ts ts' : List Continuation) : Prop :=
  ∀ (i : Nat) (D : Reading α) (t t' : Continuation), Ds[i]? = some D → ts[i]? = some t →
    ts'[i]? = some t' → D.Reaches t t'

theorem recedes_outlookOf {ts ts' : List Continuation} (hts : ts.length = ts'.length)
    (h : ReachEach Ds ts ts') :
    (outlookOf Ds ts).Recedes (outlookOf Ds ts') := by
  induction Ds generalizing ts ts' with
  | nil => exact .nil
  | cons D Ds ih =>
    cases ts with
    | nil =>
      cases ts' with
      | nil => exact .nil
      | cons => cases hts
    | cons t ts =>
      cases ts' with
      | nil => cases hts
      | cons t' ts' =>
        have hd := h 0 D t t' rfl rfl rfl
        exact hd.append (ih (Nat.succ.inj hts) fun i => h (i + 1))

theorem advances_outlookOf {ts ts' : List Continuation} (hts : ts.length = ts'.length)
    (h : ReachEach Ds ts ts')
    {i : Nat} {t t' : Continuation} (hD : Ds[i]? = some D) (ht : ts[i]? = some t)
    (ht' : ts'[i]? = some t') (hp : D.Passes t t') :
    (outlookOf Ds ts).Advances (outlookOf Ds ts') := by
  induction Ds generalizing ts ts' i with
  | nil => cases hD
  | cons D' Ds ih =>
    cases ts with
    | nil => cases ht
    | cons t₁ ts =>
      cases ts' with
      | nil => cases ht'
      | cons t₁' ts' =>
        cases i with
        | zero =>
          cases hD
          cases ht
          cases ht'
          exact hp.append_left (recedes_outlookOf (Nat.succ.inj hts) fun i => h (i + 1))
        | succ i =>
          exact .append_right (h 0 D' t₁ t₁' rfl rfl rfl)
            (ih (Nat.succ.inj hts) (fun i => h (i + 1)) hD ht ht')

/-- Where one leg gets further, so do the legs. -/
theorem outlookOf_set {ts : List Continuation} {i : Nat} {t t' : Continuation}
    (hD : Ds[i]? = some D) (ht : ts[i]? = some t) (hr : D.Reaches t t') :
    (outlookOf Ds ts).Recedes (outlookOf Ds (ts.set i t')) ∧
      (D.Passes t t' → (outlookOf Ds ts).Advances (outlookOf Ds (ts.set i t'))) := by
  have hi : i < ts.length := (List.getElem?_eq_some_iff.1 ht).1
  have hset : (ts.set i t')[i]? = some t' := by rw [List.getElem?_set_self hi]
  have each : ReachEach Ds ts (ts.set i t') := by
    intro j D' u u' hD' hu hu'
    by_cases hij : i = j
    · subst hij
      rw [hD] at hD'
      rw [ht] at hu
      rw [hset] at hu'
      cases hD'
      cases hu
      cases hu'
      exact hr
    · rw [List.getElem?_set_ne hij, hu] at hu'
      cases hu'
      exact .refl _
  exact ⟨recedes_outlookOf List.length_set.symm each,
    fun hp => advances_outlookOf List.length_set.symm each hD ht hset hp⟩

theorem tokens_set (legs : Legs α) (i : Nat) (l : Leg α) :
    tokens (legs.set i l) = (tokens legs).set i l.token := List.map_set

/-! ### Failures and legs to be asked -/

theorem exists_of_fault?_eq_some {legs : Legs α} {e : CursorError} (h : legs.fault? = some e) :
    ∃ l ∈ legs, l.error? = some e := by
  unfold fault? at h
  split at h
  · exact List.exists_of_findSome?_eq_some h
  · obtain ⟨l, hl, he⟩ := Option.bind_eq_some_iff.1 h
    exact ⟨l, List.mem_of_find?_eq_some hl, he⟩

theorem fault?_eq_none {legs : Legs α} (h : ∀ l ∈ legs, l.error? = none) : legs.fault? = none := by
  cases he : legs.fault? with
  | none => rfl
  | some e =>
    obtain ⟨l, hl, hle⟩ := exists_of_fault?_eq_some he
    rw [h l hl] at hle
    cases hle

/-- Once all legs have answered, every failure counts. -/
theorem error?_eq_none {legs : Legs α} (hs : ∀ l ∈ legs, l.source? = none)
    (h : legs.fault? = none) : ∀ l ∈ legs, l.error? = none := by
  intro l hl
  unfold fault? at h
  split at h
  · exact List.findSome?_eq_none_iff.1 h l hl
  · cases hf : legs.find? fun l => l.source?.isSome || l.error?.isSome with
    | none =>
      have := List.find?_eq_none.1 hf l hl
      rw [hs l hl] at this
      simpa using this
    | some l' =>
      have hmem := List.mem_of_find?_eq_some hf
      have hp := List.find?_some hf
      rw [hf, Option.bind_some] at h
      simp [hs l' hmem, h] at hp

/-- A leg whose next row was not asked for is among those that are to be asked. -/
theorem mem_due {legs : Legs α} {i : Nat} {t : Continuation} {source : Cursor α}
    (h : legs[i]? = some (.unread t source)) (w : World) : i ∈ legs.due [] w := by
  have hi : i < legs.length := (List.getElem?_eq_some_iff.1 h).1
  refine List.mem_filter.2 ⟨?_, by rw [h]; rfl⟩
  split
  · exact List.mem_range.2 hi
  · rw [inWakingOrder, List.mem_eraseDups, List.mem_append, List.mem_append]
    refine .inl (.inl (List.mem_filterMap.2 ⟨(.unread t source, i), ?_, rfl⟩))
    exact List.mem_zipIdx_iff_getElem?.2 (by simpa using h)

end Legs

end ResumableQuery.Cursor
