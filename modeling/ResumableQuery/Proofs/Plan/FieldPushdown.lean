import ResumableQuery.Plan.Pushdown
import ResumableQuery.Proofs.Expression.Evaluation

/-!
# What a value means in a leg

A leg with some of the fields of a stream makes of a value over the stream one over its own rows, by
writing the path of each chain of fields anew.  Where the rows of the leg have these fields in common
with the records of the stream (`FieldPushdown.Fits`), both values evaluate alike
(`FieldPushdown.eval_push`).
-/

namespace ResumableQuery

theorem forall_mem_of_forall₂ {p : β → Prop} {as : List α} {bs : List β}
    (h : List.Forall₂ (fun _ b => p b) as bs) : ∀ b ∈ bs, p b := by
  induction h with
  | nil => exact List.forall_mem_nil _
  | cons hb _ ih => exact List.forall_mem_cons.2 ⟨hb, ih⟩

namespace FieldPushdown

variable {t : FieldPushdown} {base : Alias} {v made : Value}

/-- A row of the leg has each field of the pushdown at its path in the leg, if the record of the
source has it at its own path. -/
def Fits (t : FieldPushdown) (r row : Record) : Prop :=
  ∀ e ∈ t.paths, row.atPath e.2 = r.atPath e.1

/-! ### Chains of fields -/

theorem fieldPath?_of_chain {type : FieldType} {path : List String}
    (h : chain base type path = some made) : made.fieldPath? = some (base, path) := by
  obtain ⟨last, hlast, rfl⟩ := Option.map_eq_some_iff.1 h
  obtain ⟨front, rfl⟩ := List.getLast?_eq_some_iff.1 hlast
  have path : Value.fieldPath? (front.foldl (fun v name => .field v name .any) (.quantified base)) =
      some (base, front) :=
    Value.fieldPath?_foldl id _ (fun _ _ => ⟨.any, rfl⟩) front (.quantified base)
  rw [List.dropLast_concat, Value.fieldPath?, path]
  rfl

/-- A chain of fields of another alias stays, and one of the source becomes the chain of the path in
the leg. -/
theorem pushChain_cases {type : FieldType} (h : t.pushChain v type base = some made) :
    ∃ root path, v.fieldPath? = some (root, path) ∧
      (root ≠ t.source ∧ made = v ∨
        root = t.source ∧ ∃ legPath, (path, legPath) ∈ t.paths ∧
          made.fieldPath? = some (base, legPath)) := by
  rw [pushChain] at h
  split at h
  · cases h
  · rename_i root path hpath
    refine ⟨root, path, hpath, ?_⟩
    split at h
    · rename_i hroot
      obtain ⟨legPath, hfind, hchain⟩ := Option.bind_eq_some_iff.1 h
      exact .inr ⟨hroot, legPath, Ordered.mem_of_find?_eq_some hfind, fieldPath?_of_chain hchain⟩
    · rename_i hroot
      exact .inl ⟨hroot, (Option.some.inj h).symm⟩

/-! ### Columns -/

theorem forall₂_of_pushItems {items others : List (String × Value)}
    (h : t.pushItems items base = some others) :
    List.Forall₂ (fun e o => t.push e.2 base = some o.2) items others := by
  induction items generalizing others with
  | nil =>
    obtain rfl := Option.some.inj h
    exact .nil
  | cons e items ih =>
    rw [pushItems] at h
    obtain ⟨first, hfirst, h⟩ := Option.bind_eq_some_iff.1 h
    obtain ⟨rest, hrest, h⟩ := Option.bind_eq_some_iff.1 h
    obtain rfl := Option.some.inj h
    exact .cons hfirst (ih hrest)

/-- What holds of what a leg makes of each column holds of the columns that it makes. -/
theorem forall₂_of_push_columns {P : Value → Value → Prop} {items : List (String × Value)}
    (each : ∀ e ∈ items, ∀ made, t.push e.2 base = some made → P e.2 made)
    (h : t.push (.columns items) base = some made) :
    ∃ others, made = .columns others ∧ List.Forall₂ (fun e o => P e.2 o.2) items others := by
  rw [push] at h
  obtain ⟨others, hothers, rfl⟩ := Option.map_eq_some_iff.1 h
  have both := (List.forall₂_and_left ..).2 ⟨each, forall₂_of_pushItems hothers⟩
  exact ⟨others, rfl, both.imp fun e o he => he.1 o.2 he.2⟩

/-! ### Values -/

theorem source_not_mem_aliases (hbase : base ≠ t.source) (h : t.push v base = some made) :
    t.source ∉ made.aliases := by
  induction v using Value.ind generalizing made with
  | quantified name =>
    rw [push] at h
    split at h
    · cases h
    · rename_i hname
      obtain rfl := Option.some.inj h
      exact fun ha => hname (Value.mem_aliases_quantified.1 ha).symm
  | field child name type =>
    rw [push] at h
    obtain ⟨root, path, hpath, ⟨hroot, rfl⟩ | ⟨-, legPath, -, hmade⟩⟩ := pushChain_cases h
    · exact fun ha => hroot ((Value.mem_aliases_of_fieldPath? hpath).1 ha).symm
    · exact fun ha => hbase ((Value.mem_aliases_of_fieldPath? hmade).1 ha).symm
  | literal x =>
    obtain rfl := Option.some.inj h
    exact List.not_mem_nil
  | columns items ih =>
    obtain ⟨others, rfl, hothers⟩ :=
      forall₂_of_push_columns (P := fun _ o => t.source ∉ o.aliases) (fun e he _ => ih e he) h
    intro ha
    obtain ⟨o, ho, hao⟩ := Value.mem_aliases_columns.1 ha
    exact forall_mem_of_forall₂ hothers o ho hao

/-- Where the rows of the leg have the fields of the pushdown, a value and what the leg makes of it
evaluate alike. -/
theorem toOption_eval_push {b : Bindings} {r row : Record} (hr : b.record? t.source = some r)
    (hrow : b.record? base = some row) (hfits : t.Fits r row) (h : t.push v base = some made) :
    (made.eval b).toOption = (v.eval b).toOption := by
  induction v using Value.ind generalizing made with
  | quantified name =>
    rw [push] at h
    split at h
    · cases h
    · obtain rfl := Option.some.inj h
      rfl
  | field child name type =>
    rw [push] at h
    obtain ⟨root, path, hpath, ⟨-, rfl⟩ | ⟨rfl, legPath, hmem, hmade⟩⟩ := pushChain_cases h
    · rfl
    · rw [Value.toOption_eval_of_fieldPath? hpath, Value.toOption_eval_of_fieldPath? hmade, hr, hrow,
        Option.bind_some, Option.bind_some, hfits _ hmem]
  | literal x =>
    obtain rfl := Option.some.inj h
    rfl
  | columns items ih =>
    obtain ⟨others, rfl, hothers⟩ := forall₂_of_push_columns
      (P := fun v o => (v.eval b).toOption = (o.eval b).toOption)
      (fun e he _ hmade => (ih e he hmade).symm) h
    rw [Value.eval, Value.eval, Value.toOption_evalItems_of_forall₂ hothers]

/-- A value that a leg takes no longer refers to the source, and where a row of the leg has the
fields of the pushdown in common with the record of the source it evaluates to what the value
evaluates to, or fails if the value does. -/
theorem eval_push {b : Bindings} {r row : Record} (hbase : base ≠ t.source)
    (hr : b.record? t.source = some r) (hrow : b.record? base = some row) (hfits : t.Fits r row)
    (h : t.push v base = some made) :
    t.source ∉ made.aliases ∧ ∀ tuple, v.eval b = .ok tuple ↔ made.eval b = .ok tuple := by
  refine ⟨source_not_mem_aliases hbase h, fun tuple => ?_⟩
  rw [← Except.toOption_eq_some_iff, ← Except.toOption_eq_some_iff,
    toOption_eval_push hr hrow hfits h]

/-- A leg that has the rank of a record as it is, and two nested fields of it at its top. -/
def sampleFlat : FieldPushdown :=
  (((new "outer").withField ["rank"]).withRenamed ["owner", "name"] ["user"]).withRenamed
    ["owner", "home", "city"] ["town"]

/-- The fields of the leg between a literal and a field of another record. -/
def sampleColumns : Value :=
  .columns [("kind", .literal (.text "shape")),
    ("rank", .field (.quantified "outer") "rank" .int),
    ("name", .field (.field (.quantified "outer") "owner" .any) "name" .text),
    ("city", .field (.field (.field (.quantified "outer") "owner" .any) "home" .any) "city" .text),
    ("limit", .field (.quantified "query") "limit" .int)]

def sampleNested : Record :=
  ⟨"shape", [.int 1],
    [("owner", .message [("name", .scalar (.text "ann"))]), ("rank", .scalar (.int 3))]⟩

def sampleFlatRow : Record :=
  ⟨"flat", [.int 1], [("rank", .scalar (.int 3)), ("user", .scalar (.text "ann"))]⟩

theorem sampleFlat_fits : sampleFlat.Fits sampleNested sampleFlatRow := by
  have paths : sampleFlat.paths = [(["owner", "home", "city"], ["town"]),
      (["owner", "name"], ["user"]), (["rank"], ["rank"])] := by decide +kernel
  rw [Fits, paths]
  refine List.forall_mem_cons.2 ⟨rfl, List.forall_mem_cons.2 ⟨rfl, ?_⟩⟩
  exact List.forall_mem_singleton.2 rfl

/-- The city is missing in both records. -/
theorem eval_push_sample :
    let b := Bindings.ofPairs [("outer", sampleNested), ("leg", sampleFlatRow),
      ("query", ⟨"query", [], [("limit", .scalar (.int 7))]⟩)]
    sampleFlat.Fits sampleNested sampleFlatRow ∧
      ∃ made, sampleFlat.push sampleColumns "leg" = some made ∧ "outer" ∉ made.aliases ∧
        made.eval b = .ok [.text "shape", .int 3, .text "ann", .null, .int 7] := by
  intro b
  obtain ⟨made, hmade⟩ : ∃ made, sampleFlat.push sampleColumns "leg" = some made := ⟨_, rfl⟩
  obtain ⟨gone, same⟩ := eval_push (t := sampleFlat) (b := b) (by decide) rfl rfl sampleFlat_fits
    hmade
  exact ⟨sampleFlat_fits, made, hmade, gone, (same _).1 rfl⟩

end FieldPushdown

end ResumableQuery
