import Mathlib.Data.List.TakeWhile
import ResumableQuery.Proofs.Bytes
import ResumableQuery.Proofs.Tuple.PackedPrefix
import ResumableQuery.Range

/-!
# Keys of a range of tuples

The ends of a range of tuples are prefix-aware, and they are turned into ends of an interval of
packed keys by `strinc`.  Below `strinc key` lies what lies below the key and what begins with it
(`before_strinc_iff`), so that the interval between the two is all that begins with the key
(`KeyRange.contains_strinc_iff`).  So it is the prefixes of packed tuples that an inclusive upper
end takes in and an exclusive lower end leaves out, and these are not those of the tuples alone.
`contains_toKeyRange_pack` says which tuples of a subspace have their keys in the interval of a
range: where the range speaks of the tuples that begin with an end, the interval treats those that
run on from it alike (`TupleRange.Mistakes`).
-/

namespace ResumableQuery

/-! ### Above the keys with a beginning -/

theorem before_or_replicate_prefix (n : Nat) (k : Bytes) :
    k.before (List.replicate n 0xFF) = true ∨ List.replicate n 0xFF <+: k := by
  induction n generalizing k with
  | zero => exact .inr List.nil_prefix
  | succ n ih =>
    cases k with
    | nil => exact .inl rfl
    | cons x k =>
      rw [List.replicate_succ, Bytes.cons_before_cons_iff, List.cons_prefix_cons]
      have hx := x.toNat_lt
      rcases Nat.lt_or_eq_of_le (Nat.le_of_lt_succ hx) with hlt | heq
      · exact .inl (.inl (UInt8.lt_iff_toNat_lt.2 hlt))
      · obtain rfl : x = 0xFF := UInt8.toNat_inj.1 heq
        exact (ih k).imp (fun h => .inr ⟨rfl, h⟩) fun h => ⟨rfl, h⟩

theorem before_succ_iff (front : Bytes) {last : UInt8} (hlast : last ≠ 0xFF) (n : Nat) (k : Bytes) :
    k.before (front ++ [last + 1]) = true ↔
      k.before (front ++ last :: List.replicate n 0xFF) = true ∨
        front ++ last :: List.replicate n 0xFF <+: k := by
  induction front generalizing k with
  | nil =>
    cases k with
    | nil => exact ⟨fun _ => .inl rfl, fun _ => rfl⟩
    | cons x k =>
      rw [List.nil_append, List.nil_append, Bytes.cons_before_cons_iff, Bytes.cons_before_cons_iff,
        Bytes.not_before_nil, List.cons_prefix_cons]
      have hsucc : x < last + 1 ↔ x < last ∨ x = last := by
        have hne : last.toNat ≠ 255 := mt (fun h => UInt8.toNat_inj.1 h) hlast
        have hlt := last.toNat_lt
        rw [UInt8.lt_iff_toNat_lt, UInt8.lt_iff_toNat_lt, ← UInt8.toNat_inj, UInt8.toNat_add,
          UInt8.toNat_one]
        omega
      have hall := before_or_replicate_prefix n k
      rw [hsucc, eq_comm (a := last)]
      tauto
  | cons f front ih =>
    cases k with
    | nil => exact ⟨fun _ => .inl rfl, fun _ => rfl⟩
    | cons x k =>
      rw [List.cons_append, List.cons_append, Bytes.cons_before_cons_iff,
        Bytes.cons_before_cons_iff, List.cons_prefix_cons, ih, eq_comm (a := f)]
      tauto

theorem exists_strinc_eq {key : Bytes} (h : ∃ b ∈ key, b ≠ 0xFF) : ∃ front last n, last ≠ 0xFF ∧
    key = front ++ last :: List.replicate n 0xFF ∧ strinc key = front ++ [last + 1] := by
  have hsplit := List.takeWhile_append_dropWhile (p := (· == (0xFF : UInt8))) (l := key.reverse)
  have hfull : ∀ b ∈ key.reverse.takeWhile (· == (0xFF : UInt8)), b = 0xFF := by
    intro b hb
    exact eq_of_beq (List.mem_takeWhile_imp (p := (· == (0xFF : UInt8))) hb)
  unfold strinc
  cases hrest : key.reverse.dropWhile (· == (0xFF : UInt8)) with
  | nil =>
    rw [hrest, List.append_nil] at hsplit
    obtain ⟨b, hb, hne⟩ := h
    rw [hsplit] at hfull
    exact absurd (hfull b (List.mem_reverse.2 hb)) hne
  | cons last front =>
    have hlast := List.head?_dropWhile_not (· == (0xFF : UInt8)) key.reverse
    rw [hrest] at hsplit hlast
    have hrep := List.eq_replicate_of_mem hfull
    generalize key.reverse.takeWhile (· == (0xFF : UInt8)) = full at hsplit hrep
    refine ⟨front.reverse, last, full.length, by simpa using hlast, ?_, List.reverse_cons⟩
    have hkey := congrArg List.reverse hsplit
    rw [List.reverse_reverse, hrep, List.reverse_append, List.reverse_cons, List.reverse_replicate,
      List.append_assoc, List.singleton_append] at hkey
    exact hkey.symm

/-- Below the least key above the beginning lies what lies below the beginning and what has it. -/
theorem before_strinc_iff {key : Bytes} (h : ∃ b ∈ key, b ≠ 0xFF) (k : Bytes) :
    k.before (strinc key) = true ↔ k.before key = true ∨ key <+: k := by
  obtain ⟨front, last, n, hlast, rfl, hsucc⟩ := exists_strinc_eq h
  rw [hsucc]
  exact before_succ_iff front hlast n k

/-- The keys from a key on that lie below the least key above its beginning are those that begin
with it. -/
theorem KeyRange.contains_strinc_iff {key : Bytes} (h : ∃ b ∈ key, b ≠ 0xFF) (k : Bytes) :
    (KeyRange.mk key (strinc key)).contains k = true ↔ key <+: k := by
  rw [contains, Bool.and_eq_true, Bool.not_eq_true', before_strinc_iff h]
  constructor
  · rintro ⟨hnot, hlt | hprefix⟩
    · rw [hlt] at hnot
      cases hnot
    · exact hprefix
  · exact fun hprefix => ⟨Bytes.not_before_of_prefix hprefix, .inr hprefix⟩

/-- The bytes `0xFF` at the end of a key count, although `strinc` drops them. -/
theorem KeyRange.contains_strinc_iff_sample :
    (∃ b ∈ ([0x61, 0xFF, 0xFF] : Bytes), b ≠ 0xFF) ∧ strinc [0x61, 0xFF, 0xFF] = [0x62] ∧
      (KeyRange.mk [0x61, 0xFF, 0xFF] (strinc [0x61, 0xFF, 0xFF])).contains
        [0x61, 0xFF, 0xFF, 0x00] = true ∧
      (KeyRange.mk [0x61, 0xFF, 0xFF] (strinc [0x61, 0xFF, 0xFF])).contains
        [0x61, 0xFF] = false := by
  have some_other : ∃ b ∈ ([0x61, 0xFF, 0xFF] : Bytes), b ≠ 0xFF := ⟨0x61, by decide⟩
  have inside := KeyRange.contains_strinc_iff some_other
  exact ⟨some_other, by decide, (inside _).2 (List.prefix_append _ [0x00]),
    Bool.eq_false_iff.2 (mt (inside _).1 (by decide))⟩

/-! ### Packed keys -/

namespace Tuple

/-- The packed tuple begins with the packed `start`. -/
def Leads (start t : Tuple) : Prop := start <+: t ∨ RunsOn start t

theorem leads_iff (start t : Tuple) : Leads start t ↔ pack start <+: pack t :=
  (pack_prefix_pack_iff start t).symm

theorem Leads.compare_ne_gt {start t : Tuple} (h : Leads start t) : compare start t ≠ .gt := by
  intro hgt
  have hlt := Std.OrientedCmp.gt_iff_lt.1 hgt
  rw [← compare_pack, ← Bytes.before_iff, Bytes.not_before_of_prefix ((leads_iff _ _).1 h)] at hlt
  cases hlt

theorem RunsOn.compare_eq_gt {start t : Tuple} (h : RunsOn start t) : compare t start = .gt := by
  cases hcmp : compare t start with
  | lt => exact absurd (Std.OrientedCmp.gt_iff_lt.2 hcmp) (Leads.compare_ne_gt (.inr h))
  | eq => exact absurd (eq_of_compare_eq hcmp ▸ List.prefix_rfl) h.not_prefix
  | gt => rfl

theorem before_pack_iff (s t : Tuple) : (pack s).before (pack t) = true ↔ compare s t = .lt := by
  rw [Bytes.before_iff, compare_pack]

theorem before_strinc_iff_of_ne_nil {s : Tuple} (hs : s ≠ []) (rest k : Bytes) :
    k.before (strinc (pack s ++ rest)) = true ↔
      k.before (pack s ++ rest) = true ∨ pack s ++ rest <+: k := by
  cases s with
  | nil => exact absurd rfl hs
  | cons v s =>
    obtain ⟨more, h⟩ := v.pack_eq_code_cons false
    refine before_strinc_iff ⟨v.code, ?_, v.code_ne_escape⟩ k
    rw [pack_cons, h]
    exact List.mem_cons_self

theorem before_strinc_pack_iff (s t : Tuple) : (pack t).before (strinc (pack s)) = true ↔
    (pack t).before (pack s) = true ∨ pack s <+: pack t := by
  by_cases hs : s = []
  · -- no packed tuple begins with the byte above which nothing begins with nothing
    subst hs
    have hlow : (pack t).before [TupleValue.escape] = true :=
      Bytes.before_iff.2 (compare_escape_of_unescaped (unescaped_pack t) []).1
    exact ⟨fun _ => .inr List.nil_prefix, fun _ => hlow⟩
  · have h := before_strinc_iff_of_ne_nil hs [] (pack t)
    rwa [List.append_nil] at h

variable (s t u : Tuple)

theorem before_append_pack_iff :
    (pack s ++ pack t).before (pack s ++ pack u) = true ↔ compare t u = .lt := by
  rw [Bytes.append_before_append, before_pack_iff]

theorem before_strinc_append_pack_iff :
    (pack s ++ pack t).before (strinc (pack s ++ pack u)) = true ↔
      compare t u = .lt ∨ Leads u t := by
  rw [← pack_append s t, ← pack_append s u, before_strinc_pack_iff, pack_append, pack_append,
    before_append_pack_iff, List.prefix_append_right_inj, leads_iff]

end Tuple

/-! ### Ranges -/

namespace Endpoint

variable (begins : Tuple → Tuple → Prop) (t : Tuple)

/-- The tuple is not cut off by a lower end.  An exclusive end leaves out what begins with it. -/
def Above : Endpoint → Prop
  | unbounded => True
  | inclusive low => compare t low ≠ .lt
  | exclusive low => compare t low = .gt ∧ ¬ begins low t

/-- The tuple is not cut off by an upper end.  An inclusive end takes in what begins with it. -/
def Below : Endpoint → Prop
  | unbounded => True
  | inclusive high => compare t high ≠ .gt ∨ begins high t
  | exclusive high => compare t high = .lt

end Endpoint

namespace TupleRange

/-- The tuple lies between the ends of the range, where `begins` says what begins with an end. -/
def Holds (begins : Tuple → Tuple → Prop) (r : TupleRange) (t : Tuple) : Prop :=
  r.low.Above begins t ∧ r.high.Below begins t

/-- The tuple runs on from an end that treats what begins with it apart, and the other end does not
cut it off. -/
def Mistakes (r : TupleRange) (t : Tuple) : Prop :=
  (∃ low, r.low = .exclusive low ∧ Tuple.RunsOn low t) ∧
      r.high.Below (fun start t => start <+: t) t ∨
    (∃ high, r.high = .inclusive high ∧ Tuple.RunsOn high t) ∧ r.low.Above Tuple.Leads t

variable (r : TupleRange) (s t : Tuple)

theorem above_leads_iff : r.low.Above Tuple.Leads t ↔
    r.low.Above (fun start t => start <+: t) t ∧
      ¬ ∃ low, r.low = .exclusive low ∧ Tuple.RunsOn low t := by
  obtain ⟨low, high⟩ := r
  cases low with
  | unbounded | inclusive => simp [Endpoint.Above]
  | exclusive low => simp [Endpoint.Above, Tuple.Leads, and_assoc]

theorem below_leads_iff : r.high.Below Tuple.Leads t ↔
    r.high.Below (fun start t => start <+: t) t ∨
      ∃ high, r.high = .inclusive high ∧ Tuple.RunsOn high t := by
  obtain ⟨low, high⟩ := r
  cases high with
  | unbounded | exclusive => simp [Endpoint.Below]
  | inclusive high => simp [Endpoint.Below, Tuple.Leads, or_assoc]

/-- Whether a tuple that runs on from an end counts as one that begins with it makes a difference
for the mistaken tuples only. -/
theorem holds_leads_iff_holds_iff :
    (r.Holds Tuple.Leads t ↔ r.Holds (fun start t => start <+: t) t) ↔ ¬ r.Mistakes t := by
  have hlow : (∃ low, r.low = .exclusive low ∧ Tuple.RunsOn low t) →
      r.low.Above (fun start t => start <+: t) t := by
    rintro ⟨low, hlow, hrun⟩
    rw [hlow]
    exact ⟨hrun.compare_eq_gt, hrun.not_prefix⟩
  have hhigh : (∃ high, r.high = .inclusive high ∧ Tuple.RunsOn high t) →
      ¬ r.high.Below (fun start t => start <+: t) t := by
    rintro ⟨high, hhigh, hrun⟩
    rw [hhigh]
    exact not_or.2 ⟨not_not.2 hrun.compare_eq_gt, hrun.not_prefix⟩
  have hends {above below low high : Prop} (hlow : low → above) (hhigh : high → ¬ below) :
      ((above ∧ ¬ low) ∧ (below ∨ high) ↔ above ∧ below) ↔
        ¬ (low ∧ below ∨ high ∧ above ∧ ¬ low) := by grind
  rw [Holds, Holds, Mistakes, above_leads_iff, below_leads_iff]
  exact hends hlow hhigh

theorem before_first_eq_false_iff :
    (s.pack ++ t.pack).before (r.toKeyRange s.pack).first = false ↔ r.low.Above Tuple.Leads t := by
  obtain ⟨low, high⟩ := r
  cases low with
  | unbounded =>
    exact ⟨fun _ => trivial, fun _ => Bytes.not_before_of_prefix (List.prefix_append _ _)⟩
  | inclusive low =>
    show (s.pack ++ t.pack).before (s.pack ++ low.pack) = false ↔ compare t low ≠ .lt
    rw [← Bool.not_eq_true, Tuple.before_append_pack_iff]
  | exclusive low =>
    show (s.pack ++ t.pack).before (strinc (s.pack ++ low.pack)) = false ↔
      compare t low = .gt ∧ ¬ Tuple.Leads low t
    rw [← Bool.not_eq_true, Tuple.before_strinc_append_pack_iff, not_or]
    refine and_congr_left fun hno => ⟨fun hne => ?_, fun hgt hlt => ?_⟩
    · cases hcmp : compare t low with
      | lt => exact absurd hcmp hne
      | gt => rfl
      | eq =>
        obtain rfl := Tuple.eq_of_compare_eq hcmp
        exact absurd (.inl List.prefix_rfl) hno
    · rw [hgt] at hlt
      cases hlt

theorem before_stop_iff :
    (s.pack ++ t.pack).before (r.toKeyRange s.pack).stop = true ↔ r.high.Below Tuple.Leads t := by
  obtain ⟨low, high⟩ := r
  cases high with
  | unbounded =>
    have h := (Tuple.before_strinc_append_pack_iff s t []).2 (.inr (.inl List.nil_prefix))
    rw [show Tuple.pack [] = [] from rfl, List.append_nil] at h
    exact ⟨fun _ => trivial, fun _ => h⟩
  | inclusive high =>
    show (s.pack ++ t.pack).before (strinc (s.pack ++ high.pack)) = true ↔
      compare t high ≠ .gt ∨ Tuple.Leads high t
    rw [Tuple.before_strinc_append_pack_iff]
    refine or_congr_left' fun hno => ⟨fun hlt hgt => ?_, fun hne => ?_⟩
    · rw [hgt] at hlt
      cases hlt
    cases hcmp : compare t high with
    | lt => rfl
    | gt => exact absurd hcmp hne
    | eq =>
      obtain rfl := Tuple.eq_of_compare_eq hcmp
      exact absurd (.inl List.prefix_rfl) hno
  | exclusive high => exact Tuple.before_append_pack_iff s t high

theorem contains_all_toKeyRange {s t : Tuple} (h : Tuple.Leads s t) :
    (all.toKeyRange s.pack).contains t.pack = true := by
  rw [Tuple.leads_iff] at h
  have hfirst : t.pack.before s.pack = false := Bytes.not_before_of_prefix h
  have hstop : t.pack.before (strinc s.pack) = true := (Tuple.before_strinc_pack_iff s t).2 (.inr h)
  show (!t.pack.before s.pack && t.pack.before (strinc s.pack)) = true
  rw [hfirst, hstop]
  rfl

/-- Whatever the range, its keys begin with the subspace. -/
theorem prefix_of_contains_toKeyRange (r : TupleRange) (s : Tuple) {k : Bytes}
    (h : (r.toKeyRange s.pack).contains k = true) : s.pack <+: k := by
  by_cases hs : s = []
  · subst hs
    exact List.nil_prefix
  · have hkeys := Tuple.before_strinc_iff_of_ne_nil hs
    rw [KeyRange.contains, Bool.and_eq_true, Bool.not_eq_true'] at h
    obtain ⟨hfirst, hstop⟩ := h
    obtain ⟨low, high⟩ := r
    have hbelow (rest : Bytes) (hk : k.before s.pack = true) : k.before (s.pack ++ rest) = true :=
      Bytes.before_of_not_before hk (Bytes.not_before_of_prefix (List.prefix_append _ rest))
    have hlow : k.before s.pack = false := by
      refine Bool.eq_false_iff.2 fun hk => Bool.eq_false_iff.1 hfirst ?_
      cases low with
      | unbounded => exact hk
      | inclusive low => exact hbelow _ hk
      | exclusive low => exact (hkeys low.pack k).2 (.inl (hbelow _ hk))
    cases high with
    | unbounded =>
      have hstop : k.before (strinc s.pack) = true := hstop
      rw [← List.append_nil s.pack, hkeys, List.append_nil, hlow] at hstop
      exact hstop.resolve_left Bool.false_ne_true
    | inclusive high =>
      rcases (hkeys high.pack k).1 hstop with hk | hk
      · exact Bytes.prefix_of_not_before hlow hk
      · exact (List.prefix_append _ _).trans hk
    | exclusive high => exact Bytes.prefix_of_not_before hlow hstop

/-- Of the tuples in a subspace, those have their keys in the interval of a range that lie between
its ends, where an end is taken to begin the tuples that run on from it as well.  They are those
that lie between its ends without this, but for the mistaken ones; so the range of the tuples that
begin with `p` has the tuples that run on from `p` too. -/
theorem contains_toKeyRange_pack (r : TupleRange) (p s t : Tuple) :
    ((r.toKeyRange s.pack).contains (s.pack ++ t.pack) = true ↔
      r.Holds (fun start t => start <+: t ∨ Tuple.RunsOn start t) t) ∧
    (((r.toKeyRange s.pack).contains (s.pack ++ t.pack) = true ↔
      r.Holds (fun start t => start <+: t) t) ↔ ¬ r.Mistakes t) ∧
    (((startingWith p).toKeyRange s.pack).contains (s.pack ++ t.pack) = true ↔
      p <+: t ∨ Tuple.RunsOn p t) := by
  have hall (r : TupleRange) :
      (r.toKeyRange s.pack).contains (s.pack ++ t.pack) = true ↔ r.Holds Tuple.Leads t := by
    rw [KeyRange.contains, Bool.and_eq_true, Bool.not_eq_true', before_first_eq_false_iff,
      before_stop_iff]
    rfl
  refine ⟨hall r, ?_, (hall (startingWith p)).trans ⟨?_, ?_⟩⟩
  · rw [hall r, holds_leads_iff_holds_iff]
  · rintro ⟨hlow, hne | hlead⟩
    · cases hcmp : compare t p with
      | lt => exact absurd hcmp hlow
      | gt => exact absurd hcmp hne
      | eq => exact .inl (Tuple.eq_of_compare_eq hcmp ▸ List.prefix_rfl)
    · exact hlead
  · intro hlead
    exact ⟨fun hlt => Tuple.Leads.compare_ne_gt hlead (Std.OrientedCmp.gt_iff_lt.2 hlt), .inr hlead⟩

/-- The range of the tuples that begin with `("a")` has `("a\0b")`, which does not. -/
theorem not_contains_iff_holds_prefix :
    ¬ ∀ (r : TupleRange) (s t : Tuple), (r.toKeyRange s.pack).contains (s.pack ++ t.pack) = true ↔
      r.Holds (fun start t => start <+: t) t := by
  intro h
  have hin : ((startingWith [.text "a"]).toKeyRange (Tuple.pack [])).contains
      (Tuple.pack [] ++ Tuple.pack [.text "a\x00b"]) = true := by decide +kernel
  obtain ⟨-, hne | hpre⟩ := (h (startingWith [.text "a"]) [] [.text "a\x00b"]).1 hin
  · exact hne (by decide +kernel)
  · exact absurd hpre (by decide +kernel)

end TupleRange

end ResumableQuery
