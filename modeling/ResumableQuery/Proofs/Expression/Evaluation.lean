import Mathlib.Data.List.Forall2
import ResumableQuery.Expression.Value
import ResumableQuery.Proofs.Except
import ResumableQuery.Proofs.Ordered

/-!
# What values evaluate to

A value refers to records through its aliases alone: its evaluation depends on what these stand for
and on nothing else (`eval_congr`), and to rename them is to look their new names up
(`toOption_eval_mapAliases`).  Two values are semantically equal under a renaming exactly if the
first one is the second one once it is renamed (`semanticEq_iff`).

A chain of fields leads to what is at its path in the record of its alias (`found?_of_fieldPath?`),
whatever the types in it.  What is found there is a field value or nothing, and it determines what
the chain evaluates to (`toOption_eval_of_fieldPath?`).
-/

namespace ResumableQuery

namespace Value

variable {v : Value} {a : Alias} {found : List Alias} {items : List (String × Value)}

/-- What holds of aliases and literals, of a field if it holds of what it is a field of, and of
columns if it holds of each of them, holds of all values. -/
@[elab_as_elim]
theorem ind {P : Value → Prop} (quantified : ∀ name, P (.quantified name))
    (field : ∀ child name type, P child → P (.field child name type))
    (literal : ∀ x, P (.literal x))
    (columns : ∀ items, (∀ e ∈ items, P e.2) → P (.columns items)) (v : Value) : P v :=
  @Value.rec P (fun items => ∀ e ∈ items, P e.2) (fun e => P e.2) quantified field literal columns
    (List.forall_mem_nil _) (fun _ _ hv hrest => List.forall_mem_cons.2 ⟨hv, hrest⟩)
    (fun _ _ hv => hv) v

/-! ### Aliases -/

theorem mem_itemAliasesInto
    (h : ∀ e ∈ items, ∀ found, a ∈ e.2.aliasesInto found ↔ a ∈ found ∨ a ∈ e.2.aliases) :
    a ∈ itemAliasesInto found items ↔ a ∈ found ∨ ∃ e ∈ items, a ∈ e.2.aliases := by
  induction items generalizing found with
  | nil => simp [itemAliasesInto]
  | cons e items ih =>
    obtain ⟨he, hitems⟩ := List.forall_mem_cons.1 h
    simp only [itemAliasesInto, ih hitems, he, or_assoc, List.mem_cons, exists_eq_or_imp]

theorem mem_aliasesInto (v : Value) (found : List Alias) :
    a ∈ v.aliasesInto found ↔ a ∈ found ∨ a ∈ v.aliases := by
  induction v using Value.ind generalizing found with
  | quantified name =>
    rw [aliases, aliasesInto, aliasesInto, Ordered.mem_insertKey, Ordered.mem_insertKey]
    simp [or_comm]
  | field child name type ih => exact ih found
  | literal x => simp [aliases, aliasesInto]
  | columns items ih =>
    rw [aliases, aliasesInto, aliasesInto, mem_itemAliasesInto ih, mem_itemAliasesInto ih]
    simp

@[simp] theorem mem_aliases_quantified {name : Alias} : a ∈ (quantified name).aliases ↔ a = name := by
  rw [aliases, aliasesInto, Ordered.mem_insertKey]
  simp

@[simp] theorem mem_aliases_columns :
    a ∈ (columns items).aliases ↔ ∃ e ∈ items, a ∈ e.2.aliases := by
  rw [aliases, aliasesInto, mem_itemAliasesInto fun e _ => e.2.mem_aliasesInto]
  simp

/-- A chain of fields has one alias. -/
theorem mem_aliases_of_fieldPath? {root : Alias} {path : List String}
    (h : v.fieldPath? = some (root, path)) : a ∈ v.aliases ↔ a = root := by
  induction v using Value.ind generalizing path with
  | quantified name =>
    obtain ⟨rfl, -⟩ := Prod.mk.inj (Option.some.inj h)
    exact mem_aliases_quantified
  | field child name type ih =>
    obtain ⟨⟨root', path'⟩, hchild, heq⟩ := Option.map_eq_some_iff.1 h
    obtain ⟨rfl, -⟩ := Prod.mk.inj heq
    exact ih hchild
  | literal x => cases h
  | columns items => cases h

/-- A chain of fields that grows by one field for each name has the names at the end of its path. -/
theorem fieldPath?_foldl {σ : Type} (chain : σ → Value) (step : σ → String → σ)
    (h : ∀ s name, ∃ type, chain (step s name) = .field (chain s) name type) (path : List String)
    (s : σ) : (chain (path.foldl step s)).fieldPath? =
      (chain s).fieldPath?.map fun found => (found.1, found.2 ++ path) := by
  induction path generalizing s with
  | nil => simp
  | cons name path ih =>
    obtain ⟨type, htype⟩ := h s name
    rw [List.foldl_cons, ih, htype, fieldPath?]
    cases (chain s).fieldPath? <;> simp

/-! ### Renaming -/

theorem mapItemAliases_eq_map (f : Alias → Alias) (items : List (String × Value)) :
    mapItemAliases f items = items.map fun e => (e.1, e.2.mapAliases f) := by
  induction items with
  | nil => rfl
  | cons e items ih => rw [mapItemAliases, ih, List.map_cons]

theorem mapAliases_columns (f : Alias → Alias) (items : List (String × Value)) :
    (columns items).mapAliases f = columns (items.map fun e => (e.1, e.2.mapAliases f)) := by
  rw [mapAliases, mapItemAliases_eq_map]

theorem mapAliases_eq_self {f : Alias → Alias} (h : ∀ a ∈ v.aliases, f a = a) :
    v.mapAliases f = v := by
  induction v using Value.ind with
  | quantified name => rw [mapAliases, h name (mem_aliases_quantified.2 rfl)]
  | field child name type ih => rw [mapAliases, ih h]
  | literal x => rfl
  | columns items ih =>
    have each : ∀ e ∈ items, (e.1, e.2.mapAliases f) = e := fun e he =>
      Prod.ext rfl (ih e he fun a ha => h a (mem_aliases_columns.2 ⟨e, he, ha⟩))
    rw [mapAliases_columns, List.map_congr_left each, List.map_id']

end Value

theorem AliasMap.apply_identities (names : List Alias) (a : Alias) :
    (identities names).apply a = a := by
  rw [apply, target?]
  cases hfind : Ordered.find? a (identities names) with
  | none => rfl
  | some target =>
    have hmem := Ordered.mem_of_mem_ofList (Ordered.mem_of_find?_eq_some hfind)
    obtain ⟨a', -, heq⟩ := List.mem_map.1 hmem
    obtain ⟨rfl, rfl⟩ := Prod.mk.inj heq
    rfl

namespace Value

variable {v : Value} {items : List (String × Value)}

theorem rebase_identities (names : List Alias) (v : Value) :
    v.rebase (AliasMap.identities names) = v :=
  mapAliases_eq_self fun a _ => AliasMap.apply_identities names a

theorem semanticEqItems_iff {m : AliasMap} {others : List (String × Value)}
    (h : ∀ e ∈ items, ∀ w, e.2.semanticEq m w = true ↔ e.2.rebase m = w) :
    semanticEqItems m items others = true ↔
      items.map (fun e => (e.1, e.2.rebase m)) = others := by
  induction items generalizing others with
  | nil => cases others <;> simp [semanticEqItems]
  | cons e items ih =>
    obtain ⟨he, hitems⟩ := List.forall_mem_cons.1 h
    cases others with
    | nil => simp [semanticEqItems]
    | cons o others =>
      simp [semanticEqItems, he, ih hitems, Prod.ext_iff]

/-- A value is semantically equal under a renaming to what it is after the renaming, and to nothing
else. -/
theorem semanticEq_iff (m : AliasMap) (v w : Value) :
    v.semanticEq m w = true ↔ v.rebase m = w := by
  induction v using Value.ind generalizing w with
  | quantified name =>
    cases w with
    | quantified name' =>
      simp only [semanticEq, rebase, mapAliases, AliasMap.apply]
      cases m.target? name <;> simp
    | _ => simp [semanticEq, rebase, mapAliases]
  | field child name type ih =>
    cases w <;> simp [semanticEq, rebase, mapAliases, ih, and_comm, and_assoc]
  | literal x => cases w <;> simp [semanticEq, rebase, mapAliases]
  | columns items ih =>
    cases w <;> simp [semanticEq, rebase, mapAliases_columns, semanticEqItems_iff ih]

theorem semanticEq_identities_iff (names : List Alias) (v w : Value) :
    v.semanticEq (AliasMap.identities names) w = true ↔ v = w := by
  rw [semanticEq_iff, rebase_identities]

/-! ### Evaluation -/

theorem resolve_congr {b c : Bindings} (h : ∀ a ∈ v.aliases, c.record? a = b.record? a) :
    v.resolve c = v.resolve b := by
  induction v using Value.ind with
  | quantified name => rw [resolve, resolve, h name (mem_aliases_quantified.2 rfl)]
  | field child name type ih => rw [resolve, resolve, ih h]
  | literal x => rfl
  | columns items => rfl

theorem evalItems_congr {b c : Bindings} (h : ∀ e ∈ items, e.2.eval c = e.2.eval b) :
    evalItems c items = evalItems b items := by
  induction items with
  | nil => rfl
  | cons e items ih =>
    obtain ⟨he, hitems⟩ := List.forall_mem_cons.1 h
    rw [evalItems, evalItems, he, ih hitems]

/-- Evaluation depends on what the aliases of the value stand for, and on nothing else. -/
theorem eval_congr {b c : Bindings} (h : ∀ a ∈ v.aliases, c.record? a = b.record? a) :
    v.eval c = v.eval b := by
  induction v using Value.ind with
  | quantified name => rw [eval, eval, resolve_congr h]
  | field child name type => rw [eval, eval, resolve_congr h]
  | literal x => rfl
  | columns items ih =>
    rw [eval, eval]
    exact evalItems_congr fun e he => ih e he fun a ha => h a (mem_aliases_columns.2 ⟨e, he, ha⟩)

/-! ### What chains of fields lead to -/

end Value

/-- What a field leads to, given what the chain before it leads to: a field value, or nothing where
a field is missing.  A field of what is no message leads nowhere. -/
def FieldValue.enter (name : String) : Option FieldValue → Option (Option FieldValue)
  | none => some none
  | some (.message fields) => some (Ordered.find? name fields)
  | some _ => none

/-- The element that stands for what a chain of fields leads to, if there is a single one. -/
def FieldValue.single? : Option FieldValue → Option TupleValue
  | none => some .null
  | some (.scalar x) => some x
  | some _ => none

/-- What is at a path of field names in a record: a field value, or nothing where a field is
missing.  There is no answer if a field on the way holds no message. -/
def Record.atPath (r : Record) (path : List String) : Option (Option FieldValue) :=
  path.foldlM (fun found name => FieldValue.enter name found) (some (.message r.fields))

namespace Value

/-- What is found where a chain of fields leads; a record is the message of its fields. -/
def Resolved.content : Resolved → Option FieldValue
  | record r => some (.message r.fields)
  | field f => some f
  | missing => none

/-- What a chain of fields leads to, if it does not fail. -/
def found? (b : Bindings) (v : Value) : Option (Option FieldValue) :=
  (v.resolve b).toOption.map Resolved.content

variable {b c : Bindings} {v : Value} {items : List (String × Value)}

theorem found?_quantified (name : Alias) :
    (quantified name).found? b = (b.record? name).map fun r => some (.message r.fields) := by
  rw [found?, resolve]
  cases b.record? name <;> rfl

theorem found?_field (child : Value) (name : String) (type : FieldType) :
    (field child name type).found? b = (child.found? b).bind (FieldValue.enter name) := by
  rw [found?, found?, resolve]
  cases child.resolve b with
  | error e => rfl
  | ok resolved =>
    cases resolved with
    | record r =>
      change _ = some (Ordered.find? name r.fields)
      simp only [bind, Except.bind]
      cases Ordered.find? name r.fields <;> rfl
    | missing => rfl
    | field f =>
      cases f with
      | message fields =>
        change _ = some (Ordered.find? name fields)
        simp only [bind, Except.bind]
        cases Ordered.find? name fields <;> rfl
      | scalar x => rfl
      | repeated items => rfl

/-- A chain of fields leads to what is at its path in the record of its alias. -/
theorem found?_of_fieldPath? {root : Alias} {path : List String}
    (h : v.fieldPath? = some (root, path)) :
    v.found? b = (b.record? root).bind fun r => r.atPath path := by
  induction v using Value.ind generalizing path with
  | quantified name =>
    obtain ⟨rfl, rfl⟩ := Prod.mk.inj (Option.some.inj h)
    rw [found?_quantified]
    cases b.record? name <;> rfl
  | field child name type ih =>
    obtain ⟨⟨root', path'⟩, hchild, heq⟩ := Option.map_eq_some_iff.1 h
    obtain ⟨rfl, rfl⟩ := Prod.mk.inj heq
    rw [found?_field, ih hchild, Option.bind_assoc]
    refine Option.bind_congr fun r _ => ?_
    rw [Record.atPath, Record.atPath, List.foldlM_append]
    simp
  | literal x => cases h
  | columns items => cases h

theorem toOption_element (text : String) (resolved : Resolved) :
    (resolved.element text).toOption = FieldValue.single? resolved.content := by
  cases resolved with
  | field f => cases f <;> rfl
  | _ => rfl

theorem toOption_single (v : Value) :
    (do
      let resolved ← v.resolve b
      return [← resolved.element v.display] : Except EvaluationError Tuple).toOption =
      ((v.found? b).bind FieldValue.single?).map ([·]) := by
  rw [found?, Except.toOption_bind]
  cases v.resolve b with
  | error e => rfl
  | ok resolved =>
    change (resolved.element v.display >>= fun x => pure [x]).toOption =
      (FieldValue.single? resolved.content).map ([·])
    rw [Except.toOption_bind, toOption_element]
    cases FieldValue.single? resolved.content <;> rfl

theorem toOption_eval_quantified (name : Alias) :
    ((quantified name).eval b).toOption =
      (((quantified name).found? b).bind FieldValue.single?).map ([·]) := by
  rw [eval]
  exact toOption_single _

theorem toOption_eval_field (child : Value) (name : String) (type : FieldType) :
    ((field child name type).eval b).toOption =
      (((field child name type).found? b).bind FieldValue.single?).map ([·]) := by
  rw [eval]
  exact toOption_single _

/-- A chain of fields evaluates to the element at its path in the record of its alias. -/
theorem toOption_eval_of_fieldPath? {root : Alias} {path : List String}
    (h : v.fieldPath? = some (root, path)) :
    (v.eval b).toOption =
      (((b.record? root).bind fun r => r.atPath path).bind FieldValue.single?).map ([·]) := by
  rw [← found?_of_fieldPath? h]
  cases v with
  | quantified name => exact toOption_eval_quantified name
  | field child name type => exact toOption_eval_field child name type
  | literal x => cases h
  | columns items => cases h

theorem toOption_evalItems_cons (e : String × Value) (items : List (String × Value)) :
    (evalItems b (e :: items)).toOption =
      (e.2.eval b).toOption.bind fun first => (evalItems b items).toOption.map (first ++ ·) := by
  rw [evalItems, Except.toOption_bind]
  refine Option.bind_congr fun first _ => ?_
  cases evalItems b items <;> rfl

/-- Columns evaluate alike if each of them does. -/
theorem toOption_evalItems_of_forall₂ {others : List (String × Value)}
    (h : List.Forall₂ (fun e o => (e.2.eval b).toOption = (o.2.eval c).toOption) items others) :
    (evalItems b items).toOption = (evalItems c others).toOption := by
  induction h with
  | nil => rfl
  | cons he _ ih => rw [toOption_evalItems_cons, toOption_evalItems_cons, he, ih]

/-! ### Evaluation of renamed values -/

section Renaming

variable {f : Alias → Alias}

theorem found?_mapAliases (h : ∀ a ∈ v.aliases, c.record? a = b.record? (f a)) :
    (v.mapAliases f).found? b = v.found? c := by
  induction v using Value.ind with
  | quantified name =>
    rw [mapAliases, found?_quantified, found?_quantified, h name (mem_aliases_quantified.2 rfl)]
  | field child name type ih => rw [mapAliases, found?_field, found?_field, ih h]
  | literal x => rfl
  | columns items => rfl

/-- A renamed value evaluates to what the value does where each alias stands for what its new name
stands for. -/
theorem toOption_eval_mapAliases (h : ∀ a ∈ v.aliases, c.record? a = b.record? (f a)) :
    ((v.mapAliases f).eval b).toOption = (v.eval c).toOption := by
  induction v using Value.ind with
  | quantified name =>
    rw [toOption_eval_quantified, ← found?_mapAliases h]
    exact toOption_eval_quantified _
  | field child name type =>
    rw [toOption_eval_field, ← found?_mapAliases h]
    exact toOption_eval_field _ _ _
  | literal x => rfl
  | columns items ih =>
    rw [mapAliases_columns, eval, eval]
    refine toOption_evalItems_of_forall₂ (List.forall₂_map_left_iff.2 (List.forall₂_same.2 ?_))
    exact fun e he => ih e he fun a ha => h a (mem_aliases_columns.2 ⟨e, he, ha⟩)

end Renaming

end Value

namespace Bindings

theorem record?_bind_self (b : Bindings) (name : Alias) (r : Record) :
    (b.bind name r).record? name = some r :=
  Ordered.find?_insert_self ..

theorem record?_bind_of_ne {name a : Alias} (h : a ≠ name) (b : Bindings) (r : Record) :
    (b.bind name r).record? a = b.record? a :=
  Ordered.find?_insert_of_ne h ..

/-- The bindings in which each alias stands for what its new name stands for. -/
def along (m : AliasMap) (b : Bindings) : Bindings :=
  ofPairs ((m.sources ++ b.map (·.1)).filterMap fun a => (b.record? (m.apply a)).map (a, ·))

theorem record?_along (m : AliasMap) (b : Bindings) (a : Alias) :
    (b.along m).record? a = b.record? (m.apply a) := by
  rw [along, record?, ofPairs, Ordered.find?_ofList_filterMap]
  split
  · rfl
  · rename_i hnew
    rw [List.mem_append, not_or] at hnew
    -- An alias that is neither renamed nor bound stays what it is, and stands for nothing.
    have kept : m.apply a = a := by
      rw [AliasMap.apply, AliasMap.target?]
      cases hfind : Ordered.find? a m with
      | none => rfl
      | some target =>
        exact absurd (List.mem_map_of_mem (Ordered.mem_of_find?_eq_some hfind)) hnew.1
    rw [kept, record?]
    cases hfind : Ordered.find? a b with
    | none => rfl
    | some r => exact absurd (List.mem_map_of_mem (Ordered.mem_of_find?_eq_some hfind)) hnew.2

end Bindings

end ResumableQuery
