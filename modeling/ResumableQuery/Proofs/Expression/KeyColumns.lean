import ResumableQuery.Proofs.Expression.Evaluation
import ResumableQuery.Proofs.Plan.RequiredValues

/-!
# Key expressions as values

Each column of a key expression is a path of field names in the record, and the element of the
column is what is found there (`KeyExpression.forall₂_paths`).  A chain of fields over the same path
finds the same, so the values that stand for the columns of a key expression evaluate to its tuple,
one after the other (`Value.eval_ofKeyExpressions`).
-/

namespace ResumableQuery

/-- The single element at a path of field names below what was found already: null where a field is
missing, and none where there is no answer or what is found is not a single value. -/
def FieldValue.column? (found : Option FieldValue) (path : List String) : Option TupleValue :=
  (path.foldlM (fun found name => FieldValue.enter name found) found).bind FieldValue.single?

theorem FieldValue.column?_cons (found : Option FieldValue) (name : String) (path : List String) :
    column? found (name :: path) = (enter name found).bind fun below => column? below path := by
  rw [column?, List.foldlM_cons]
  exact Option.bind_assoc ..

theorem FieldValue.enter_map_message (name : String) (fields : Option Fields) :
    enter name (fields.map message) = some (fields.bind (Ordered.find? name)) := by
  cases fields <;> rfl

namespace KeyExpression

/-- What holds of no columns and of fields, of an expression over a message if it holds of the
expression, and of several expressions if it holds of each of them, holds of all key expressions. -/
@[elab_as_elim]
theorem ind {P : KeyExpression → Prop} (empty : P .empty) (field : ∀ name, P (.field name))
    (nest : ∀ parent child, P child → P (.nest parent child))
    (concat : ∀ children, (∀ e ∈ children, P e) → P (.concat children)) (e : KeyExpression) :
    P e :=
  @KeyExpression.rec P (fun children => ∀ e ∈ children, P e) empty field nest concat
    (List.forall_mem_nil _) (fun _ _ he hrest => List.forall_mem_cons.2 ⟨he, hrest⟩) e

theorem length_pathsAll {children : List KeyExpression}
    (h : ∀ e ∈ children, e.paths.length = e.columns) :
    (pathsAll children).length = columnsAll children := by
  induction children with
  | nil => rfl
  | cons e rest ih =>
    obtain ⟨he, hrest⟩ := List.forall_mem_cons.1 h
    rw [pathsAll, columnsAll, List.length_append, he, ih hrest]

/-- There is one path for each column. -/
theorem length_paths (e : KeyExpression) : e.paths.length = e.columns := by
  induction e using KeyExpression.ind with
  | empty => rfl
  | field name => rfl
  | nest parent child ih => rw [paths, columns, List.length_map, ih]
  | concat children ih => exact length_pathsAll ih

/-! ### Columns are what is at their paths -/

/-- The tuple has, column by column, the elements at the paths. -/
abbrev FoundAt (fields : Option Fields) (paths : List (List String)) (t : Tuple) : Prop :=
  List.Forall₂ (fun path x => FieldValue.column? (fields.map .message) path = some x) paths t

variable {fields : Option Fields} {t : Tuple}

theorem foundAt_pathsAll {children : List KeyExpression}
    (each : ∀ e ∈ children, ∀ t, e.evaluateIn fields = .ok t → FoundAt fields e.paths t)
    (h : evaluateAllIn fields children = .ok t) : FoundAt fields (pathsAll children) t := by
  induction children generalizing t with
  | nil =>
    obtain rfl := Except.ok.inj h
    exact .nil
  | cons e rest ih =>
    obtain ⟨he, hrest⟩ := List.forall_mem_cons.1 each
    rw [evaluateAllIn] at h
    cases hfirst : e.evaluateIn fields with
    | error => rw [hfirst] at h; cases h
    | ok first =>
      cases hothers : evaluateAllIn fields rest with
      | error => rw [hfirst, hothers] at h; cases h
      | ok others =>
        rw [hfirst, hothers] at h
        obtain rfl := Except.ok.inj h
        exact List.rel_append (he first hfirst) (ih hrest hothers)

theorem foundAt_field {name : String} (h : (field name).evaluateIn fields = .ok t) :
    FoundAt fields [[name]] t := by
  have found (x : TupleValue)
      (hx : FieldValue.single? (fields.bind (Ordered.find? name)) = some x) :
      FoundAt fields [[name]] [x] := by
    refine .cons ?_ .nil
    rw [FieldValue.column?_cons, FieldValue.enter_map_message]
    exact hx
  rw [evaluateIn] at h
  split at h
  · rename_i hmissing
    obtain rfl := Except.ok.inj h
    exact found .null (by rw [hmissing]; rfl)
  · rename_i x hx
    obtain rfl := Except.ok.inj h
    exact found x (by rw [hx]; rfl)
  · cases h
  · cases h

/-- What an expression yields over the message of a field is at the paths that lead through it. -/
theorem foundAt_map_cons {parent : String} {paths : List (List String)} (nested : Option Fields)
    (hparent : fields.bind (Ordered.find? parent) = nested.map .message)
    (h : FoundAt nested paths t) : FoundAt fields (paths.map (parent :: ·)) t := by
  refine List.forall₂_map_left_iff.2 (h.imp fun path x hx => ?_)
  rw [FieldValue.column?_cons, FieldValue.enter_map_message, hparent]
  exact hx

/-- The elements of the tuple that an expression yields are those at its paths. -/
theorem forall₂_paths {e : KeyExpression} (h : e.evaluateIn fields = .ok t) :
    FoundAt fields e.paths t := by
  induction e using KeyExpression.ind generalizing fields t with
  | empty =>
    obtain rfl := Except.ok.inj h
    exact .nil
  | field name => exact foundAt_field h
  | nest parent child ih =>
    rw [evaluateIn] at h
    split at h
    · rename_i hparent
      exact foundAt_map_cons none hparent (ih h)
    · rename_i nested hparent
      exact foundAt_map_cons (some nested) hparent (ih h)
    · cases h
    · cases h
  | concat children ih => exact foundAt_pathsAll (fun e he _ => ih e he) h

end KeyExpression

/-! ### Chains of fields over the same paths -/

namespace Value

variable {b : Bindings} {values : List Value} {t : Tuple}

/-- The chain of fields over a path, with the types that come one out of the other. -/
def chainOf (base : Alias) (type : FieldType) (path : List String) : Value :=
  (path.foldl (fun (chain : Value × FieldType) name =>
    let t := (chain.2.field? name).getD .any
    (chain.1.field name t, t)) (quantified base, type)).1

theorem ofKeyExpressions_singleton (e : KeyExpression) (base : Alias) (type : FieldType) :
    ofKeyExpressions [e] base type = e.paths.map (chainOf base type) := by
  rw [ofKeyExpressions, List.flatMap_singleton]
  rfl

theorem fieldPath?_chainOf (base : Alias) (type : FieldType) (path : List String) :
    (chainOf base type path).fieldPath? = some (base, path) :=
  fieldPath?_foldl Prod.fst _ (fun _ _ => ⟨_, rfl⟩) path (quantified base, type)

/-- Values that yield one element each, which together make up the tuple. -/
abbrev Yields (b : Bindings) (values : List Value) (t : Tuple) : Prop :=
  List.Forall₂ (fun v x => v.eval b = .ok [x]) values t

theorem Yields.mapM_eval (h : Yields b values t) :
    values.mapM (eval b) = .ok (t.map fun x => [x]) := by
  induction h with
  | nil => rfl
  | cons hv _ ih =>
    rw [List.mapM_cons, hv, ih]
    rfl

theorem Yields.evalItems {items : List (String × Value)} (h : Yields b (items.map (·.2)) t) :
    evalItems b items = .ok t := by
  induction items generalizing t with
  | nil =>
    cases h
    rfl
  | cons e items ih =>
    rw [List.map_cons] at h
    cases h with
    | cons he hitems =>
      rw [Value.evalItems, he, ih hitems]
      rfl

/-- The chains over the columns of a key expression yield the elements of its tuple. -/
theorem yields_ofKeyExpressions {e : KeyExpression} {r : Record} (h : e.evaluate r = .ok t)
    (b : Bindings) (base : Alias) (type : FieldType) :
    Yields (b.bind base r) (ofKeyExpressions [e] base type) t := by
  rw [ofKeyExpressions_singleton]
  refine List.forall₂_map_left_iff.2 ((KeyExpression.forall₂_paths h).imp fun path x hx => ?_)
  rw [← Except.toOption_eq_some_iff, toOption_eval_of_fieldPath? (fieldPath?_chainOf ..),
    Bindings.record?_bind_self]
  change (FieldValue.column? (some (.message r.fields)) path).map ([·]) = some [x]
  rw [show FieldValue.column? (some (.message r.fields)) path = some x from hx]
  rfl

/-- Where a key expression yields a tuple for a record, the tuple has one element for each column, and
each column has a path.  The values that stand for the columns evaluate to one element each, and
these make up the tuple.  So comparing rows by these values is comparing them by the expression. -/
theorem eval_ofKeyExpressions {e : KeyExpression} {r : Record} (h : e.evaluate r = .ok t)
    (b : Bindings) (base : Alias) (type : FieldType) :
    t.length = e.columns ∧ e.paths.length = e.columns ∧
    (∃ parts, (ofKeyExpressions [e] base type).mapM (eval (b.bind base r)) = .ok parts ∧
      parts.flatten = t ∧ ∀ part ∈ parts, part.length = 1) ∧
    ∀ items : List (String × Value), items.map (·.2) = ofKeyExpressions [e] base type →
      (ComparisonKey.onValue base (.columns items)).ofRow b r = .ok t ∧
        (ComparisonKey.onKey e).ofRow b r = .ok t := by
  have yields := yields_ofKeyExpressions h b base type
  have length : t.length = e.paths.length := (KeyExpression.forall₂_paths h).length_eq.symm
  refine ⟨length.trans e.length_paths, e.length_paths,
    ⟨_, yields.mapM_eval, ?_, fun part hpart => ?_⟩, fun items hitems => ?_⟩
  · rw [← List.flatMap_def, List.flatMap_singleton']
  · obtain ⟨x, -, rfl⟩ := List.mem_map.1 hpart
    rfl
  · rw [ComparisonKey.ofRow_eq_ok_iff, ComparisonKey.ofRow_eq_ok_iff]
    rw [← hitems] at yields
    refine ⟨?_, h⟩
    rw [ComparisonKey.evaluate, eval]
    exact yields.evalItems

/-- A name, two fields of a message, and a field of a message that is missing. -/
def samplePersonKey : KeyExpression :=
  .concat [.field "name", .nest "address" (.concat [.field "city", .empty, .field "zip"]),
    .nest "employer" (.concat [.nest "address" (.field "city")])]

def samplePerson : Record :=
  ⟨"person", [.int 1], [("address", .message [("city", .scalar (.text "Oslo"))]),
    ("name", .scalar (.text "ada"))]⟩

/-- The alias of the row stood for another record before. -/
theorem eval_ofKeyExpressions_sample :
    samplePersonKey.evaluate samplePerson = .ok [.text "ada", .text "Oslo", .null, .null] ∧
      samplePersonKey.columns = 4 ∧
      ∃ values, ofKeyExpressions [samplePersonKey] "row" .any = values ∧
        values.map display =
          ["$row.name", "$row.address.city", "$row.address.zip", "$row.employer.address.city"] ∧
        ∀ items : List (String × Value), items.map (·.2) = values →
          (ComparisonKey.onValue "row" (.columns items)).ofRow [("row", sampleOuter)] samplePerson =
            .ok [.text "ada", .text "Oslo", .null, .null] := by
  have evaluates : samplePersonKey.evaluate samplePerson =
      .ok [.text "ada", .text "Oslo", .null, .null] := rfl
  obtain ⟨length, -, -, keys⟩ :=
    eval_ofKeyExpressions evaluates [("row", sampleOuter)] "row" .any
  exact ⟨evaluates, length.symm, _, rfl, by decide +kernel, fun items hitems => (keys items hitems).1⟩

end Value

end ResumableQuery
