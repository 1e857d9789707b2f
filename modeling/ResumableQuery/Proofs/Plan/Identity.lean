import ResumableQuery.Proofs.Plan.ForgedTokens
import ResumableQuery.Proofs.WireFormat

/-!
# What identifies a plan

The hash of a plan is that of a description, which holds the hashes of the plans below and of the
comparison key in place of these.  `anonymous` is what is left of a plan, a comparison key or a
value once aliases are alike.  A description is a tag and then parts each of which can be read off
the front, so it determines its parts (`Outline.eq_of_toBytes_eq`), and as far as the hash has no
collisions among the strings that it is given (`hashed`), plans with the same hash have the same
anonymous form.

All positions that a merge hands out carry its hash, so they are refused by every other merge.  What
an execution is refused for depends on the anonymous form and the continuation alone.
-/

namespace ResumableQuery

/-- Two values that were read off the front are the same, and so is what follows. -/
theorem Wire.Reads.cancel {read : Wire.Reader α} {b c rest rest' : Bytes} {x y : α}
    (hx : Wire.Reads read b x) (hy : Wire.Reads read c y) (h : b ++ rest = c ++ rest') :
    x = y ∧ rest = rest' := by
  have hread := hx rest
  rw [h, hy rest'] at hread
  cases hread
  exact ⟨rfl, rfl⟩

theorem Wire.Reads.cancel_all {read : Wire.Reader α} {b c : Bytes} {x y : α}
    (hx : Wire.Reads read b x) (hy : Wire.Reads read c y) (h : b = c) : x = y := by
  exact (hx.cancel hy (congrArg (· ++ []) h)).1

theorem Wire.reads_hash (h : UInt64) :
    Wire.Reads (Wire.readWord 8) (Wire.word64 h.toNat) h.toNat :=
  Wire.reads_readWord (h.toNat_lt : h.toNat < 256 ^ 8)

/-- Some byte strings fit a machine, and no two of them have the same hash. -/
structure Digest.CollisionFree (known : List Bytes) : Prop where
  short : ∀ b ∈ known, b.length < 2 ^ 64
  injective : ∀ a ∈ known, ∀ b ∈ known, hash64 a = hash64 b → a = b

theorem Digest.CollisionFree.of_nodup {known l : List Bytes} (hknown : known ⊆ l)
    (hshort : ∀ b ∈ l, b.length < 2 ^ 64) (h : (l.map hash64).Nodup) : CollisionFree known where
  short b hb := hshort b (hknown hb)
  injective _ ha _ hb heq := List.inj_on_of_nodup_map h (hknown ha) (hknown hb) heq

/-! ### Values -/

namespace Value

mutual

theorem mapAliases_mapAliases (f g : Alias → Alias) (v : Value) :
    (v.mapAliases f).mapAliases g = v.mapAliases (g ∘ f) := by
  match v with
  | quantified name => rfl
  | field child name type =>
    rw [mapAliases, mapAliases, mapAliases, mapAliases_mapAliases f g child]
  | literal v => rfl
  | columns items =>
    rw [mapAliases, mapAliases, mapAliases, mapItemAliases_mapItemAliases f g items]

theorem mapItemAliases_mapItemAliases (f g : Alias → Alias) (items : List (String × Value)) :
    mapItemAliases g (mapItemAliases f items) = mapItemAliases (g ∘ f) items := by
  match items with
  | [] => rfl
  | (name, v) :: rest =>
    rw [mapItemAliases, mapItemAliases, mapItemAliases, mapAliases_mapAliases f g v,
      mapItemAliases_mapItemAliases f g rest]

end

/-- The value with all aliases alike. -/
def anonymous (v : Value) : Value := v.mapAliases fun _ => placeholder

theorem anonymous_mapAliases (f : Alias → Alias) (v : Value) :
    (v.mapAliases f).anonymous = v.anonymous :=
  mapAliases_mapAliases ..

/-- What the hash of a value is taken of. -/
def description (v : Value) : Bytes := Wire.text "value" ++ v.anonymous.toWire

theorem hash_eq (v : Value) : v.hash = Digest.hash64 v.description := rfl

theorem hash_anonymous (v : Value) : v.anonymous.hash = v.hash := by
  have hv : v.anonymous.anonymous = v.anonymous := anonymous_mapAliases ..
  rw [hash_eq, hash_eq, description, description, hv]

theorem anonymous_eq_of_description_eq {v v' : Value} (hv : v.description.length < 2 ^ 64)
    (hv' : v'.description.length < 2 ^ 64) (h : v.description = v'.description) :
    v.anonymous = v'.anonymous := by
  have wire := List.append_cancel_left h
  rw [description, List.length_append] at hv hv'
  exact (reads_ofWire (by omega)).cancel_all (reads_ofWire (by omega)) wire

end Value

/-! ### Comparison keys -/

namespace ComparisonKey

variable {known : List Bytes} {k k' : ComparisonKey}

/-- The key with all aliases alike. -/
def anonymous : ComparisonKey → ComparisonKey
  | onKey e => onKey e
  | onValue _ v => onValue Value.placeholder v.anonymous

/-- What the hash of a key is taken of. -/
def description : ComparisonKey → Bytes
  | onKey e => Wire.text "on_key_expression" ++ e.toWire
  | onValue _ v => Wire.text "on_value" ++ Wire.word64 v.hash.toNat

/-- The byte strings that hashing a key takes hashes of. -/
def hashed : ComparisonKey → List Bytes
  | onKey e => [description (onKey e)]
  | onValue base v => [description (onValue base v), v.description]

theorem hash_eq (k : ComparisonKey) : k.hash = Digest.hash64 k.description := by
  cases k <;> rfl

theorem hash_anonymous (k : ComparisonKey) : k.anonymous.hash = k.hash := by
  cases k with
  | onKey e => rfl
  | onValue base v => rw [anonymous, hash, hash, v.hash_anonymous]

theorem description_mem_hashed (k : ComparisonKey) : k.description ∈ k.hashed := by
  cases k <;> exact List.mem_cons_self

theorem anonymous_eq_of_hash_eq (hfree : Digest.CollisionFree known) (hk : k.hashed ⊆ known)
    (hk' : k'.hashed ⊆ known) (h : k.hash = k'.hash) : k.anonymous = k'.anonymous := by
  have short := hfree.short _ (hk k.description_mem_hashed)
  have short' := hfree.short _ (hk' k'.description_mem_hashed)
  rw [hash_eq, hash_eq] at h
  have heq := hfree.injective _ (hk k.description_mem_hashed) _ (hk' k'.description_mem_hashed) h
  have keyTag := Wire.reads_readText (s := "on_key_expression") (by decide +kernel)
  have valueTag := Wire.reads_readText (s := "on_value") (by decide +kernel)
  cases k with
  | onKey e =>
    cases k' with
    | onKey e' =>
      have wire := List.append_cancel_left heq
      rw [description, List.length_append] at short short'
      have he := (KeyExpression.reads_ofWire (by omega)).cancel_all
        (KeyExpression.reads_ofWire (by omega)) wire
      rw [he]
    | onValue base' v' => exact absurd (keyTag.cancel valueTag heq).1 (by decide)
  | onValue base v =>
    cases k' with
    | onKey e' => exact absurd (valueTag.cancel keyTag heq).1 (by decide)
    | onValue base' v' =>
      have word := (Wire.reads_hash v.hash).cancel_all (Wire.reads_hash v'.hash)
        (List.append_cancel_left heq)
      have hv : v.description ∈ known := hk (List.mem_cons_of_mem _ List.mem_cons_self)
      have hv' : v'.description ∈ known := hk' (List.mem_cons_of_mem _ List.mem_cons_self)
      have hdescription := hfree.injective _ hv _ hv' (UInt64.toNat_inj.1 word)
      rw [anonymous, anonymous, Value.anonymous_eq_of_description_eq (hfree.short _ hv)
        (hfree.short _ hv') hdescription]

end ComparisonKey

/-! ### Descriptions of plans -/

namespace Plan

/-- What the description of a plan says of it.  The plans below and the comparison key are there by
their hashes. -/
inductive Outline where
  | scan (range : TupleRange) (reverse : Bool)
  | filter (child : UInt64) (key : KeyExpression) (equals : Tuple)
  /-- A union, and whether its leg is run for each of some outer rows. -/
  | union (legs : List UInt64) (key : UInt64) (reverse : Bool) (perRow : Bool)
  | intersection (legs : List UInt64) (key : UInt64) (reverse : Bool)

namespace Outline

/-- What a description begins with. -/
def tag : Outline → String
  | scan _ _ => "scan"
  | filter _ _ _ => "filter"
  | union _ _ _ _ => "union"
  | intersection _ _ _ => "intersection"

/-- The hashes of the legs of a merge and of its key, and its direction. -/
def operands (legs : List UInt64) (key : UInt64) (reverse : Bool) : Bytes :=
  Wire.list (fun h => Wire.word64 h.toNat) legs ++ (Wire.word64 key.toNat ++ Wire.truth reverse)

/-- What follows the tag in a description. -/
def body : Outline → Bytes
  | scan range reverse => range.toWire ++ Wire.truth reverse
  | filter child key equals => Wire.word64 child.toNat ++ (key.toWire ++ equals.toWire)
  | union legs key reverse perRow => operands legs key reverse ++ Wire.truth perRow
  | intersection legs key reverse => operands legs key reverse

/-- The description. -/
def toBytes (o : Outline) : Bytes := Wire.text o.tag ++ o.body

theorem reads_hashes {legs : List UInt64} (h : legs.length < 2 ^ 64) :
    Wire.Reads (Wire.readList do return UInt64.ofNat (← Wire.readWord 8))
      (Wire.list (fun h => Wire.word64 h.toNat) legs) legs := by
  refine Wire.reads_readList h fun leg _ => ?_
  have := (Wire.reads_hash leg).map UInt64.ofNat
  rwa [UInt64.ofNat_toNat] at this

theorem operands_cancel {legs legs' : List UInt64} {key key' : UInt64} {reverse reverse' : Bool}
    {rest rest' : Bytes} (hlong : (operands legs key reverse).length < 2 ^ 64)
    (hlong' : (operands legs' key' reverse').length < 2 ^ 64)
    (h : operands legs key reverse ++ rest = operands legs' key' reverse' ++ rest') :
    legs = legs' ∧ key = key' ∧ reverse = reverse' ∧ rest = rest' := by
  -- The hash of a leg takes eight bytes, so there are fewer legs than bytes.
  have count (l : List UInt64) : l.length ≤ (l.flatMap fun h => Wire.word64 h.toNat).length :=
    Wire.length_le_of_forall (fun h => by rw [Wire.length_word64]; omega) l
  have few := count legs
  have few' := count legs'
  rw [operands, Wire.list, List.length_append, List.length_append] at hlong hlong'
  rw [operands, operands, List.append_assoc, List.append_assoc, List.append_assoc,
    List.append_assoc] at h
  obtain ⟨hlegs, h⟩ := (reads_hashes (by omega)).cancel (reads_hashes (by omega)) h
  obtain ⟨hkey, h⟩ := (Wire.reads_hash key).cancel (Wire.reads_hash key') h
  obtain ⟨hreverse, h⟩ := (Wire.reads_readTruth reverse).cancel (Wire.reads_readTruth reverse') h
  exact ⟨hlegs, UInt64.toNat_inj.1 hkey, hreverse, h⟩

/-- A description determines what it says. -/
theorem eq_of_toBytes_eq {o o' : Outline} (hlong : o.toBytes.length < 2 ^ 64)
    (hlong' : o'.toBytes.length < 2 ^ 64) (h : o.toBytes = o'.toBytes) : o = o' := by
  rw [toBytes, List.length_append, Wire.length_text] at hlong hlong'
  obtain ⟨htag, h⟩ := (Wire.reads_readText (s := o.tag) (by omega)).cancel
    (Wire.reads_readText (s := o'.tag) (by omega)) h
  cases o with
  | scan range reverse =>
    cases o' with
    | scan range' reverse' =>
      rw [body, List.length_append] at hlong hlong'
      obtain ⟨hrange, h⟩ := (TupleRange.reads_ofWire (r := range) (by omega)).cancel
        (TupleRange.reads_ofWire (r := range') (by omega)) h
      rw [hrange, (Wire.reads_readTruth reverse).cancel_all (Wire.reads_readTruth reverse') h]
    | filter | union | intersection => simp [tag] at htag
  | filter child key equals =>
    cases o' with
    | filter child' key' equals' =>
      rw [body, List.length_append, List.length_append] at hlong hlong'
      obtain ⟨hchild, h⟩ := (Wire.reads_hash child).cancel (Wire.reads_hash child') h
      obtain ⟨hkey, h⟩ := (KeyExpression.reads_ofWire (e := key) (by omega)).cancel
        (KeyExpression.reads_ofWire (e := key') (by omega)) h
      have hequals := (Tuple.reads_ofWire (t := equals) (by omega)).cancel_all
        (Tuple.reads_ofWire (t := equals') (by omega)) h
      rw [UInt64.toNat_inj.1 hchild, hkey, hequals]
    | scan | union | intersection => simp [tag] at htag
  | union legs key reverse perRow =>
    cases o' with
    | union legs' key' reverse' perRow' =>
      rw [body, List.length_append] at hlong hlong'
      obtain ⟨hlegs, hkey, hreverse, h⟩ := operands_cancel (by omega) (by omega) h
      rw [hlegs, hkey, hreverse,
        (Wire.reads_readTruth perRow).cancel_all (Wire.reads_readTruth perRow') h]
    | scan | filter | intersection => simp [tag] at htag
  | intersection legs key reverse =>
    cases o' with
    | intersection legs' key' reverse' =>
      rw [body] at hlong hlong'
      have h : operands legs key reverse ++ [] = operands legs' key' reverse' ++ [] :=
        congrArg (· ++ []) h
      obtain ⟨hlegs, hkey, hreverse, -⟩ := operands_cancel (by omega) (by omega) h
      rw [hlegs, hkey, hreverse]
    | scan | filter | union => simp [tag] at htag

end Outline

/-- What the description of a plan says. -/
def outline : Plan → Outline
  | scan range reverse => .scan range reverse
  | filter child key equals => .filter child.hash key equals
  | merge .union legs key reverse => .union (legs.map (·.2.hash)) key.hash reverse false
  | merge .intersection legs key reverse => .intersection (legs.map (·.2.hash)) key.hash reverse
  | dynamic _ leg key reverse => .union [leg.hash] key.hash reverse true

/-- What the hash of a plan is taken of. -/
def description (plan : Plan) : Bytes := plan.outline.toBytes

mutual

/-- The byte strings that hashing a plan takes hashes of. -/
def hashed : Plan → List Bytes
  | scan range reverse => [(scan range reverse).description]
  | filter child key equals => (filter child key equals).description :: child.hashed
  | merge operation legs key reverse =>
    (merge operation legs key reverse).description :: (key.hashed ++ hashedOfLegs legs)
  | dynamic name leg key reverse =>
    (dynamic name leg key reverse).description :: (key.hashed ++ leg.hashed)

/-- The byte strings that hashing the legs of a merge takes hashes of. -/
def hashedOfLegs : List (Alias × Plan) → List Bytes
  | [] => []
  | (_, leg) :: rest => leg.hashed ++ hashedOfLegs rest

end

theorem description_mem_hashed (plan : Plan) : plan.description ∈ plan.hashed := by
  cases plan <;> exact List.mem_cons_self

theorem legHashes_eq (legs : List (Alias × Plan)) :
    legHashes legs = (legs.map (·.2.hash)).flatMap fun h => Wire.word64 h.toNat := by
  induction legs with
  | nil => rfl
  | cons leg legs ih => rw [legHashes, ih, List.map_cons, List.flatMap_cons]

/-- The hash of a plan is that of its description. -/
theorem hash_eq (plan : Plan) : plan.hash = Digest.hash64 plan.description := by
  cases plan with
  | scan range reverse => rw [hash, List.append_assoc]; rfl
  | filter child key equals => rw [hash, List.append_assoc, List.append_assoc]; rfl
  | merge operation legs key reverse =>
    cases operation <;>
      simp only [hash, description, outline, Outline.toBytes, Outline.tag, Outline.body,
        Outline.operands, Wire.list, List.length_map, legHashes_eq, List.append_assoc]
  | dynamic name leg key reverse =>
    simp only [hash, description, outline, Outline.toBytes, Outline.tag, Outline.body,
      Outline.operands, Wire.list, List.length_cons, List.length_nil, List.flatMap_cons,
      List.flatMap_nil, List.append_nil, List.append_assoc, Nat.zero_add]

/-! ### Aliases -/

mutual

/-- The plan with all aliases alike. -/
def anonymous : Plan → Plan
  | scan range reverse => scan range reverse
  | filter child key equals => filter child.anonymous key equals
  | merge operation legs key reverse =>
    merge operation (anonymousLegs legs) key.anonymous reverse
  | dynamic _ leg key reverse => dynamic Value.placeholder leg.anonymous key.anonymous reverse

/-- The legs of a merge with all aliases alike. -/
def anonymousLegs : List (Alias × Plan) → List (Alias × Plan)
  | [] => []
  | (_, leg) :: rest => (Value.placeholder, leg.anonymous) :: anonymousLegs rest

end

mutual

theorem hash_anonymous (plan : Plan) : plan.anonymous.hash = plan.hash := by
  match plan with
  | scan range reverse => rfl
  | filter child key equals => rw [anonymous, hash, hash, hash_anonymous child]
  | merge operation legs key reverse =>
    have hlegs := map_hash_anonymousLegs legs
    have houtline : (merge operation legs key reverse).anonymous.outline =
        (merge operation legs key reverse).outline := by
      cases operation <;> rw [anonymous, outline, outline, hlegs, key.hash_anonymous]
    rw [hash_eq, hash_eq, description, description, houtline]
  | dynamic name leg key reverse =>
    rw [anonymous, hash, hash, hash_anonymous leg, key.hash_anonymous]

theorem map_hash_anonymousLegs (legs : List (Alias × Plan)) :
    (anonymousLegs legs).map (·.2.hash) = legs.map (·.2.hash) := by
  match legs with
  | [] => rfl
  | (name, leg) :: rest =>
    rw [anonymousLegs, List.map_cons, List.map_cons, hash_anonymous leg,
      map_hash_anonymousLegs rest]

end

/-! ### Plans with the same hash -/

theorem outline_merge_inj {operation operation' : SetOperation} {legs legs' : List (Alias × Plan)}
    {key key' : ComparisonKey} {reverse reverse' : Bool}
    (h : (merge operation legs key reverse).outline =
      (merge operation' legs' key' reverse').outline) :
    operation = operation' ∧ legs.map (·.2.hash) = legs'.map (·.2.hash) ∧ key.hash = key'.hash ∧
      reverse = reverse' := by
  cases operation with
  | union =>
    cases operation' with
    | union =>
      obtain ⟨hlegs, hkey, hreverse, -⟩ := Outline.union.inj h
      exact ⟨rfl, hlegs, hkey, hreverse⟩
    | intersection => cases h
  | intersection =>
    cases operation' with
    | union => cases h
    | intersection => exact ⟨rfl, Outline.intersection.inj h⟩

section SameHash

variable {known : List Bytes} (hfree : Digest.CollisionFree known)

include hfree

theorem outline_eq_of_hash_eq {plan plan' : Plan} (hk : plan.hashed ⊆ known)
    (hk' : plan'.hashed ⊆ known) (h : plan.hash = plan'.hash) : plan.outline = plan'.outline := by
  have hmem := hk plan.description_mem_hashed
  have hmem' := hk' plan'.description_mem_hashed
  rw [hash_eq, hash_eq] at h
  have hdescription := hfree.injective _ hmem _ hmem' h
  exact Outline.eq_of_toBytes_eq (hfree.short _ hmem) (hfree.short _ hmem') hdescription

mutual

theorem anonymous_eq_of_outline_eq (plan plan' : Plan) (hk : plan.hashed ⊆ known)
    (hk' : plan'.hashed ⊆ known) (h : plan.outline = plan'.outline) :
    plan.anonymous = plan'.anonymous := by
  cases plan with
  | scan range reverse =>
    cases plan' with
    | scan range' reverse' =>
      obtain ⟨hrange, hreverse⟩ := Outline.scan.inj h
      rw [hrange, hreverse]
    | merge operation => cases operation <;> cases h
    | filter | dynamic => cases h
  | filter child key equals =>
    cases plan' with
    | filter child' key' equals' =>
      obtain ⟨hchild, hkey, hequals⟩ := Outline.filter.inj h
      rw [hashed, List.cons_subset] at hk hk'
      have below := anonymous_eq_of_outline_eq child child' hk.2 hk'.2
        (outline_eq_of_hash_eq hfree hk.2 hk'.2 hchild)
      rw [anonymous, anonymous, below, hkey, hequals]
    | merge operation => cases operation <;> cases h
    | scan | dynamic => cases h
  | merge operation legs key reverse =>
    cases plan' with
    | merge operation' legs' key' reverse' =>
      obtain ⟨hoperation, hlegs, hkey, hreverse⟩ := outline_merge_inj h
      rw [hashed, List.cons_subset, List.append_subset] at hk hk'
      have below := anonymousLegs_eq_of_hash_eq legs legs' hk.2.2 hk'.2.2 hlegs
      have hkey := ComparisonKey.anonymous_eq_of_hash_eq hfree hk.2.1 hk'.2.1 hkey
      rw [anonymous, anonymous, hoperation, below, hkey, hreverse]
    | dynamic =>
      cases operation with
      | union =>
        have perRow := (Outline.union.inj h).2.2.2
        cases perRow
      | intersection => cases h
    | scan | filter => cases operation <;> cases h
  | dynamic name leg key reverse =>
    cases plan' with
    | dynamic name' leg' key' reverse' =>
      obtain ⟨hleg, hkey, hreverse, -⟩ := Outline.union.inj h
      rw [hashed, List.cons_subset, List.append_subset] at hk hk'
      have below := anonymous_eq_of_outline_eq leg leg' hk.2.2 hk'.2.2
        (outline_eq_of_hash_eq hfree hk.2.2 hk'.2.2 (List.cons.inj hleg).1)
      have hkey := ComparisonKey.anonymous_eq_of_hash_eq hfree hk.2.1 hk'.2.1 hkey
      rw [anonymous, anonymous, below, hkey, hreverse]
    | merge operation' =>
      cases operation' with
      | union =>
        have perRow := (Outline.union.inj h).2.2.2
        cases perRow
      | intersection => cases h
    | scan | filter => cases h

theorem anonymousLegs_eq_of_hash_eq (legs legs' : List (Alias × Plan))
    (hk : hashedOfLegs legs ⊆ known) (hk' : hashedOfLegs legs' ⊆ known)
    (h : legs.map (·.2.hash) = legs'.map (·.2.hash)) :
    anonymousLegs legs = anonymousLegs legs' := by
  match legs, legs' with
  | [], [] => rfl
  | [], _ :: _ => cases h
  | _ :: _, [] => cases h
  | (name, leg) :: rest, (name', leg') :: rest' =>
    obtain ⟨hleg, hrest⟩ := List.cons.inj h
    rw [hashedOfLegs, List.append_subset] at hk hk'
    have first := anonymous_eq_of_outline_eq leg leg' hk.1 hk'.1
      (outline_eq_of_hash_eq hfree hk.1 hk'.1 hleg)
    rw [anonymousLegs, anonymousLegs, first,
      anonymousLegs_eq_of_hash_eq rest rest' hk.2 hk'.2 hrest]

end

/-- Plans have the same hash exactly if they are the same once aliases are alike. -/
theorem hash_eq_iff {plan plan' : Plan} (hk : plan.hashed ⊆ known) (hk' : plan'.hashed ⊆ known) :
    plan.hash = plan'.hash ↔ plan.anonymous = plan'.anonymous := by
  constructor
  · intro h
    exact anonymous_eq_of_outline_eq hfree plan plan' hk hk' (outline_eq_of_hash_eq hfree hk hk' h)
  · intro h
    rw [← plan.hash_anonymous, h, plan'.hash_anonymous]

end SameHash

end Plan

/-! ### Continuations of merges -/

namespace MergePosition

theorem exists_word_of_ofWire {b rest : Bytes} {p : MergePosition} (h : ofWire b = .ok (p, rest)) :
    ∃ n b', Wire.readWord 8 b = .ok (n, b') ∧ p.planHash = UInt64.ofNat n := by
  change (Wire.readWord 8 b >>= fun x => Wire.readList Wire.readBlob x.2 >>= fun y =>
    Except.ok ((⟨UInt64.ofNat x.1, y.1⟩, y.2) : MergePosition × Bytes)) = _ at h
  cases hword : Wire.readWord 8 b with
  | error fault =>
    rw [hword] at h
    cases h
  | ok x =>
    rw [hword] at h
    change (Wire.readList Wire.readBlob x.2 >>= _) = _ at h
    cases hlist : Wire.readList Wire.readBlob x.2 with
    | error fault =>
      rw [hlist] at h
      cases h
    | ok y =>
      rw [hlist] at h
      cases h
      exact ⟨x.1, x.2, rfl, rfl⟩

/-- If the continuation is read as the position of a merge, then of one with a given plan hash. -/
def Bears (planHash : UInt64) (t : Continuation) : Prop :=
  ∀ p, t.position ofWire = .ok (some p) → p.planHash = planHash

theorem bears_done (planHash : UInt64) : Bears planHash .done := by
  intro p h
  cases h

/-- The hash comes first in a position, so it is read back whatever becomes of the legs. -/
theorem bears_toContinuation (planHash : UInt64) (legs : List Continuation) :
    Bears planHash (of planHash legs).toContinuation := by
  intro p h
  rw [toContinuation, Continuation.position, Wire.decode] at h
  cases hread : ofWire (of planHash legs).toWire with
  | error fault =>
    rw [hread] at h
    cases h
  | ok x =>
    rw [hread] at h
    cases h
    obtain ⟨n, b', hword, hn⟩ := exists_word_of_ofWire hread
    have := Wire.reads_hash planHash (Wire.list Wire.blob (of planHash legs).legs)
    rw [toWire] at hword
    cases this.symm.trans hword
    rw [hn, UInt64.ofNat_toNat]

end MergePosition

namespace Cursor

/-- Asked in some worlds one after the other, the cursor hands out a continuation. -/
def HandsOut (rows : Cursor α) (t : Continuation) : Prop :=
  ∃ ws, (∃ r ∈ (rows.answers ws).1, r.2 = t) ∨
    ∃ reason, (rows.answers ws).2 = some (.stopped reason t)

namespace Merge

open MergePosition

variable {m : Merge α} {c : Continuation}

theorem bears_of_resume {count : Nat} {tokens : List Continuation}
    (h : m.resume count c = .ok tokens) : Bears m.planHash c := by
  intro p hp
  rw [resume, hp] at h
  dsimp only at h
  split at h
  · cases h
  · rename_i hhash
    exact Decidable.not_not.1 hhash

theorem openAt_resume {openers : List (OpenLeg α)} {payload : Bytes} {e : CursorError}
    (h : m.resume openers.length (.resume payload) = .error e) :
    m.openAt openers (.resume payload) = .error e := by
  have hdone : ¬(Continuation.resume payload).isDone = true := Bool.false_ne_true
  rw [openAt, if_neg hdone, h]
  rfl

theorem bears_of_openAt {openers : List (OpenLeg α)} {rows : Cursor α}
    (h : m.openAt openers c = .ok rows) : Bears m.planHash c := by
  cases c with
  | start =>
    intro p hp
    cases hp
  | done => exact bears_done _
  | resume payload =>
    cases hresume : m.resume openers.length (.resume payload) with
    | error e =>
      rw [openAt_resume hresume] at h
      cases h
    | ok tokens => exact bears_of_resume hresume

/-- A merge is not opened at a position that carries another hash. -/
theorem openAt_of_bears {openers : List (OpenLeg α)} {planHash : UInt64} {payload : Bytes}
    (h : Bears planHash (.resume payload)) (hne : planHash ≠ m.planHash) :
    ∃ e, m.openAt openers (.resume payload) = .error (.invalidArgument e) := by
  have refused : ∃ e, m.resume openers.length (.resume payload) = .error (.invalidArgument e) := by
    rw [resume]
    cases hp : (Continuation.resume payload).position MergePosition.ofWire with
    | error fault => exact ⟨_, rfl⟩
    | ok p =>
      cases p with
      | none =>
        rw [Continuation.position] at hp
        split at hp <;> cases hp
      | some p =>
        dsimp only
        rw [if_pos (fun heq => hne ((h p hp).symm.trans heq))]
        exact ⟨_, rfl⟩
  obtain ⟨e, he⟩ := refused
  exact ⟨e, openAt_resume he⟩

end Merge

end Cursor

namespace Plan

open Cursor MergePosition

/-- All that an execution of a merge hands out carries the hash of the plan. -/
theorem bears_of_handsOut {x : Execution} {operation : SetOperation} {legs : List (Alias × Plan)}
    {key : ComparisonKey} {reverse : Bool} {c t : Continuation} {p : ScanProperties}
    {rows : Cursor Record} (h : (merge operation legs key reverse).execute x c p = .ok rows)
    (ht : rows.HandsOut t) : Bears (merge operation legs key reverse).hash t := by
  rw [execute] at h
  generalize hm : merger x operation key reverse (merge operation legs key reverse).hash = m at h
  have hhash : (merge operation legs key reverse).hash = m.planHash := by rw [← hm]; rfl
  rw [hhash]
  cases hopened : m.openAt (openers x p.clearSkipAndLimit legs) c with
  | error e =>
    rw [hopened] at h
    cases h
  | ok source =>
    rw [hopened] at h
    cases h
    have confined := Merge.opensTo_openAt (m := m) (T := Bears m.planHash) (bears_done _)
      (fun legs => bears_toContinuation _ _)
      (opensTo_openers x (fun _ => True) legs p.clearSkipAndLimit) c
    rw [hopened] at confined
    have rows : (skipThenLimit p c source).Confined _ _ (Bears m.planHash) :=
      confined.skipThenLimit (bears_done _) p (Merge.bears_of_openAt hopened)
    obtain ⟨ws, handed⟩ := ht
    have answers := rows.answers (fun w wait hw => hw.later (World.sameContent_await w wait))
      fun w (_ : w ∈ ws) e _ => trivial
    rcases handed with ⟨r, hr, rfl⟩ | ⟨reason, hend⟩
    · exact (answers.1 r hr).2
    · exact answers.2 reason t hend

end Plan

/-! ### What an execution is refused for -/

/-- Why a construction was refused, if it was. -/
def refusal? : Except CursorError β → Option CursorError
  | .ok _ => none
  | .error e => some e

theorem refusal?_ok (b : β) : refusal? (.ok b) = none := rfl

theorem refusal?_bind {x : Except CursorError β} {x' : Except CursorError γ}
    {f : β → Except CursorError δ} {f' : γ → Except CursorError ε} (hx : refusal? x = refusal? x')
    (hf : ∀ b c, refusal? (f b) = refusal? (f' c)) :
    refusal? (x >>= f) = refusal? (x' >>= f') := by
  cases x with
  | ok b =>
    cases x' with
    | ok c => exact hf b c
    | error e => cases hx
  | error e =>
    cases x' with
    | ok c => cases hx
    | error e' => exact hx

namespace Cursor

theorem KeyScan.refusal?_openAt (s s' : KeyScan) (w w' : World) (c : Continuation) :
    refusal? (s.openAt w c) = refusal? (s'.openAt w' c) := by
  rw [openAt.eq_def, openAt.eq_def]
  split
  · rfl
  · split
    · rfl
    · exact (refusal?_ok _).trans (refusal?_ok _).symm

namespace Merge

variable {openers openers' : List (OpenLeg α)}

/-- The legs are refused for the same, one by one. -/
abbrev RefuseAlike (openers openers' : List (OpenLeg α)) : Prop :=
  List.Forall₂ (fun opener opener' => ∀ c, refusal? (opener c) = refusal? (opener' c))
    openers openers'

theorem refusal?_mapM_openLeg (h : RefuseAlike openers openers') (tokens : List Continuation) :
    refusal? ((openers.zip tokens).mapM fun (opener, token) => openLeg opener token) =
      refusal? ((openers'.zip tokens).mapM fun (opener, token) => openLeg opener token) := by
  induction h generalizing tokens with
  | nil => rfl
  | @cons opener opener' _ _ hopener _ ih =>
    cases tokens with
    | nil => rfl
    | cons token tokens =>
      rw [List.zip_cons_cons, List.zip_cons_cons, List.mapM_cons, List.mapM_cons]
      have first : refusal? (openLeg opener token) = refusal? (openLeg opener' token) := by
        rw [openLeg, openLeg]
        split
        · rfl
        · have := hopener token
          generalize opener token = opened at this ⊢
          generalize opener' token = opened' at this ⊢
          cases opened <;> cases opened' <;> exact this
      exact refusal?_bind first fun _ _ => refusal?_bind (ih tokens) fun _ _ => rfl

theorem refusal?_openAt {m m' : Merge α} (hm : m.planHash = m'.planHash)
    (h : RefuseAlike openers openers') (c : Continuation) :
    refusal? (m.openAt openers c) = refusal? (m'.openAt openers' c) := by
  have hresume : m.resume openers.length c = m'.resume openers'.length c := by
    rw [resume, resume, hm, h.length_eq]
  rw [openAt, openAt, hresume]
  split
  · rfl
  · cases m'.resume openers'.length c with
    | error e => rfl
    | ok tokens =>
      change refusal? ((openers.zip tokens).mapM _ >>= _) =
        refusal? ((openers'.zip tokens).mapM _ >>= _)
      exact refusal?_bind (refusal?_mapM_openLeg h tokens) fun _ _ => rfl

end Merge

end Cursor

namespace Plan

open Cursor

variable (x x' : Execution)

mutual

/-- Aliases do not count for what an execution is refused for, and neither does anything else but
the continuation. -/
theorem refusal?_execute_anonymous (plan : Plan) (c : Continuation) (p p' : ScanProperties) :
    refusal? (plan.execute x c p) = refusal? (plan.anonymous.execute x' c p') := by
  match plan with
  | scan range reverse =>
    rw [anonymous, execute, execute, RecordStore.scan, RecordStore.scan]
    exact refusal?_bind (KeyScan.refusal?_openAt ..) fun _ _ => rfl
  | filter child key equals =>
    rw [anonymous, execute, execute]
    exact refusal?_bind (refusal?_execute_anonymous child c _ _) fun _ _ => rfl
  | merge operation legs key reverse =>
    have hhash := hash_anonymous (merge operation legs key reverse)
    rw [anonymous] at hhash
    rw [anonymous, execute, execute]
    refine refusal?_bind (Merge.refusal?_openAt hhash.symm ?_ c) fun _ _ => rfl
    exact refuseAlike_openers legs _ _
  | dynamic name leg key reverse =>
    rw [anonymous, execute, execute]
    exact refusal?_execute_anonymous leg c p p'

theorem refuseAlike_openers (legs : List (Alias × Plan)) (p p' : ScanProperties) :
    Merge.RefuseAlike (openers x p legs) (openers x' p' (anonymousLegs legs)) := by
  match legs with
  | [] =>
    rw [anonymousLegs, openers, openers]
    exact .nil
  | (name, leg) :: rest =>
    rw [anonymousLegs, openers, openers]
    exact .cons (fun c => refusal?_execute_anonymous leg c _ _) (refuseAlike_openers rest _ _)

end

/-- Whether the plan is a set operator whose legs are merged. -/
def isMerge : Plan → Bool
  | merge _ _ _ _ => true
  | _ => false

/-- Where the hash has no collisions among the strings that it is given, plans have the same hash
exactly if they are the same once aliases are alike.  Then a position that a merge hands out is an
unusable argument to every merge that is not the same in that sense, and every continuation is
refused alike by plans that are. -/
theorem hash_identifies (plan plan' : Plan)
    (hfree : Digest.CollisionFree (plan.hashed ++ plan'.hashed)) :
    (plan.hash = plan'.hash ↔ plan.anonymous = plan'.anonymous) ∧
    (plan.isMerge = true → plan'.isMerge = true → plan.anonymous ≠ plan'.anonymous →
      ∀ (x : Execution) (c : Continuation) (p : ScanProperties) (rows : Cursor Record),
        plan.execute x c p = .ok rows → ∀ payload, rows.HandsOut (.resume payload) →
          ∀ (x' : Execution) (p' : ScanProperties),
            ∃ e, plan'.execute x' (.resume payload) p' = .error (.invalidArgument e)) ∧
    (plan.anonymous = plan'.anonymous →
      ∀ (x x' : Execution) (c : Continuation) (p p' : ScanProperties),
        refusal? (plan.execute x c p) = refusal? (plan'.execute x' c p')) := by
  have hiff := hash_eq_iff hfree (List.subset_append_left ..) (List.subset_append_right ..)
  refine ⟨hiff, fun hplan hplan' hne x c p rows hrows payload hpayload x' p' => ?_,
    fun heq x x' c p p' => ?_⟩
  · cases plan with
    | merge operation legs key reverse =>
      cases plan' with
      | merge operation' legs' key' reverse' =>
        let m := merger x' operation' key' reverse' (merge operation' legs' key' reverse').hash
        have carries := bears_of_handsOut hrows hpayload
        have refused : ∃ e, m.openAt (openers x' p'.clearSkipAndLimit legs') (.resume payload) =
            .error (.invalidArgument e) :=
          Merge.openAt_of_bears carries fun h => hne (hiff.1 h)
        obtain ⟨e, he⟩ := refused
        refine ⟨e, ?_⟩
        rw [execute, he]
        rfl
      | scan | filter | dynamic => cases hplan'
    | scan | filter | dynamic => cases hplan
  · rw [refusal?_execute_anonymous x x' plan c p p', heq,
      ← refusal?_execute_anonymous x' x' plan' c p' p']

/-- A set operator over all records by their rank, whose leg has a name. -/
def sampleByRank (operation : SetOperation) (name : Alias) : Plan :=
  .merge operation [(name, .scan .all false)]
    (.onValue name (.field (.quantified name) "rank" .int)) false

/-- What is said of the operator, given the hashes of its leg and of its key. -/
def sampleOutline : SetOperation → Outline
  | .union => .union [5052265162415655824] 2631853921797561503 false false
  | .intersection => .intersection [5052265162415655824] 2631853921797561503 false

/-- The strings whose hashes make up the hash of the operator: its own, that of the key, that of the
value in the key, and that of the leg. -/
def sampleHashed (operation : SetOperation) : List Bytes :=
  [(sampleOutline operation).toBytes, Wire.text "on_value" ++ Wire.word64 1554004788089577196,
    Value.description (.field (.quantified Value.placeholder) "rank" .int),
    (Outline.scan .all false).toBytes]

theorem map_hash64_sampleHashed :
    (sampleHashed .intersection).map Digest.hash64 =
      [14673963134363811043, 2631853921797561503, 1554004788089577196, 5052265162415655824] := by
  have own : Digest.hash64 (sampleOutline .intersection).toBytes = 14673963134363811043 := by
    decide +kernel
  have key : Digest.hash64 (Wire.text "on_value" ++ Wire.word64 1554004788089577196) =
      2631853921797561503 := by
    decide +kernel
  have value : Digest.hash64
      (Value.description (.field (.quantified Value.placeholder) "rank" .int)) =
        1554004788089577196 := by
    decide +kernel
  have leg : Digest.hash64 (Outline.scan .all false).toBytes = 5052265162415655824 := by
    decide +kernel
  rw [sampleHashed, List.map_cons, own, List.map_cons, key, List.map_cons, value, List.map_cons,
    leg, List.map_nil]

theorem hashed_sampleByRank (operation : SetOperation) (name : Alias) :
    (sampleByRank operation name).hashed = sampleHashed operation := by
  have hashes := map_hash64_sampleHashed
  simp only [sampleHashed, List.map_cons, List.map_nil, List.cons.injEq] at hashes
  obtain ⟨-, hkey, hvalue, hscan, -⟩ := hashes
  have hscan : (scan .all false).hash = 5052265162415655824 := (hash_eq _).trans hscan
  have hvalue : (Value.field (.quantified name) "rank" .int).hash = 1554004788089577196 := hvalue
  have hkey : (ComparisonKey.onValue name (.field (.quantified name) "rank" .int)).hash =
      2631853921797561503 := by
    rw [ComparisonKey.hash, hvalue]
    exact hkey
  have houtline : (sampleByRank operation name).outline = sampleOutline operation := by
    rw [sampleByRank]
    cases operation <;> rw [outline, sampleOutline, hkey, List.map_cons, List.map_nil, hscan]
  have hdescription : (sampleByRank operation name).description =
      (sampleOutline operation).toBytes := congrArg Outline.toBytes houtline
  rw [sampleByRank] at hdescription
  rw [sampleByRank, hashed, hdescription, ComparisonKey.hashed, ComparisonKey.description, hvalue]
  rfl

theorem hash_identifies_sample :
    let union := sampleByRank .union "a"
    let intersection := sampleByRank .intersection "b"
    Digest.CollisionFree (union.hashed ++ intersection.hashed) ∧ union.hash ≠ intersection.hash ∧
      ∀ (x : Execution) (c : Continuation) (p : ScanProperties) (rows : Cursor Record),
        union.execute x c p = .ok rows → ∀ payload, rows.HandsOut (.resume payload) →
          ∀ (x' : Execution) (p' : ScanProperties),
            ∃ e, intersection.execute x' (.resume payload) p' = .error (.invalidArgument e) := by
  intro union intersection
  have own : Digest.hash64 (sampleOutline .union).toBytes = 18401088055103631583 := by
    decide +kernel
  have hfree : Digest.CollisionFree (union.hashed ++ intersection.hashed) := by
    rw [hashed_sampleByRank, hashed_sampleByRank]
    refine .of_nodup (l := (sampleOutline .union).toBytes :: sampleHashed .intersection) ?_
      (by decide +kernel) ?_
    · exact List.append_subset.2 ⟨List.cons_subset_cons _ (List.subset_cons_self ..),
        List.subset_cons_self ..⟩
    · rw [List.map_cons, map_hash64_sampleHashed, own]
      decide
  have hne : union.anonymous ≠ intersection.anonymous := by
    intro h
    cases h
  obtain ⟨hiff, hforeign, -⟩ := hash_identifies union intersection hfree
  exact ⟨hfree, fun h => hne (hiff.1 h), hforeign rfl rfl hne⟩

end Plan

end ResumableQuery
