import Mathlib
import ResumableQuery.Position
import ResumableQuery.Proofs.Text.Base64Url

/-!
# Reading back continuations

A continuation is read back from its bytes and from its text, and the positions of key ranges, of
nested iterations and of merges are read back from the continuations that carry them.  Lengths and
counts are written as words of eight bytes, so positions have to be shorter than `2 ^ 64`.

`Reads` says what it means for a reader to take a value off the front of a byte string, whatever
follows; readers that are run one after the other read what was written one after the other.
-/

namespace ResumableQuery

namespace Wire

/-- The reader takes `x` off the front of every byte string that begins with `b`. -/
def Reads (read : Reader α) (b : Bytes) (x : α) : Prop := ∀ rest, read (b ++ rest) = .ok (x, rest)

theorem reads_pure (x : α) : Reads (pure x) [] x := fun _ => rfl

theorem Reads.bind {read : Reader α} {f : α → Reader β} {b c : Bytes} {x : α} {y : β}
    (h : Reads read b x) (k : Reads (f x) c y) : Reads (read >>= f) (b ++ c) y := by
  intro rest
  rw [List.append_assoc]
  show (read (b ++ (c ++ rest)) >>= fun p => f p.1 p.2) = _
  rw [h (c ++ rest)]
  exact k rest

theorem Reads.map {read : Reader α} {b : Bytes} {x : α} (h : Reads read b x) (f : α → β) :
    Reads (do return f (← read)) b (f x) := by
  have := h.bind (f := fun x => pure (f x)) (reads_pure (f x))
  rwa [List.append_nil] at this

theorem Reads.decode {read : Reader α} {b : Bytes} {x : α} (h : Reads read b x) :
    decode read b = .ok x := by
  have := h []
  rw [List.append_nil] at this
  rw [Wire.decode, this]
  rfl

theorem reads_readBytes (b : Bytes) : Reads (readBytes b.length) b b := by
  intro rest
  simp only [readBytes, List.take_left, List.drop_left, if_true]

theorem reads_readWord {n x : Nat} (h : x < 256 ^ n) : Reads (readWord n) (littleEndian n x) x := by
  have hb := (reads_readBytes (littleEndian n x)).map ofLittleEndian
  rw [littleEndian_length, ofLittleEndian_littleEndian] at hb
  rwa [show x % Nat.pow 256 n = x from Nat.mod_eq_of_lt h] at hb

theorem reads_readBlob {b : Bytes} (h : b.length < 2 ^ 64) : Reads readBlob (blob b) b :=
  (reads_readWord (n := 8) (x := b.length) (by omega)).bind (reads_readBytes b)

theorem reads_readMany {read : Reader α} {write : α → Bytes} {xs : List α}
    (h : ∀ x ∈ xs, Reads read (write x) x) :
    Reads (readMany read xs.length) (xs.flatMap write) xs := by
  induction xs with
  | nil => exact reads_pure []
  | cons x xs ih =>
    rw [List.flatMap_cons]
    have hxs := ih fun y hy => h y (List.mem_cons_of_mem _ hy)
    exact (h x List.mem_cons_self).bind (hxs.map (x :: ·))

theorem reads_readList {read : Reader α} {write : α → Bytes} {xs : List α}
    (hl : xs.length < 2 ^ 64) (h : ∀ x ∈ xs, Reads read (write x) x) :
    Reads (readList read) (list write xs) xs :=
  (reads_readWord (n := 8) (x := xs.length) (by omega)).bind (reads_readMany h)

theorem reads_readOptional {read : Reader α} {write : α → Bytes} {x : Option α}
    (h : ∀ a ∈ x, Reads read (write a) a) : Reads (readOptional read) (optional write x) x := by
  cases x with
  | none => exact fun _ => rfl
  | some a =>
    have hsome := (h a rfl).map some
    intro rest
    exact hsome rest

theorem length_blob (b : Bytes) : (blob b).length = 8 + b.length := by
  rw [blob, List.length_append, word64, littleEndian_length]

end Wire

namespace Continuation

theorem ofBytes_toBytes (c : Continuation) : ofBytes c.toBytes = .ok c := by
  cases c with
  | start => rfl
  | resume payload =>
    have h : ¬((1 : UInt8) = 0 ∧ payload = []) := fun h => absurd h.1 (by decide)
    rw [toBytes, ofBytes, if_neg h, if_pos rfl]
  | done => rfl

/-- A continuation is read back from its text. -/
theorem ofBase64_toBase64 (c : Continuation) : ofBase64 c.toBase64 = .ok c := by
  rw [ofBase64, toBase64, Base64Url.decode_encode]
  exact ofBytes_toBytes c

theorem position_resume {read : Wire.Reader α} {b : Bytes} {x : α} (h : Wire.Reads read b x) :
    (resume b).position read = .ok (some x) := by
  rw [position, h.decode]

end Continuation

namespace ListPosition

theorem reads_ofWire (p : ListPosition) : Wire.Reads ofWire p.toWire p := by
  have index : p.nextIndex.toNat < 256 ^ 8 := p.nextIndex.toNat_lt
  have := (Wire.reads_readWord index).map fun n => ListPosition.mk (UInt64.ofNat n)
  rwa [UInt64.ofNat_toNat] at this

end ListPosition

namespace KeyPosition

theorem reads_ofWire {p : KeyPosition} (h : p.lastKey.length < 2 ^ 64) :
    Wire.Reads ofWire p.toWire p :=
  (Wire.reads_readBlob h).map KeyPosition.mk

theorem position_toContinuation {p : KeyPosition} (h : p.lastKey.length < 2 ^ 64) :
    p.toContinuation.position ofWire = .ok (some p) :=
  Continuation.position_resume (reads_ofWire h)

theorem toContinuation_ne_done (p : KeyPosition) : p.toContinuation ≠ .done := by
  rw [toContinuation]
  exact nofun

theorem length_toContinuation (p : KeyPosition) :
    p.toContinuation.toBytes.length = 9 + p.lastKey.length := by
  rw [toContinuation, Continuation.toBytes, List.length_cons, toWire, Wire.length_blob]
  omega

end KeyPosition

namespace FlatMapPosition

theorem reads_ofWire {p : FlatMapPosition} (houter : p.outer.length < 2 ^ 64)
    (hcheck : ∀ b ∈ p.check, b.length < 2 ^ 64) (hinner : p.inner.length < 2 ^ 64) :
    Wire.Reads ofWire p.toWire p := by
  have check : Wire.Reads (Wire.readOptional Wire.readBlob) (Wire.optional Wire.blob p.check)
      p.check := Wire.reads_readOptional fun b hb => Wire.reads_readBlob (hcheck b hb)
  have inner := (Wire.reads_readBlob hinner).map (FlatMapPosition.mk p.outer p.check)
  have position : Wire.Reads ofWire
      (Wire.blob p.outer ++ (Wire.optional Wire.blob p.check ++ Wire.blob p.inner)) p :=
    (Wire.reads_readBlob houter).bind (check.bind inner)
  rwa [← List.append_assoc] at position

theorem position_toContinuation {p : FlatMapPosition} (houter : p.outer.length < 2 ^ 64)
    (hcheck : ∀ b ∈ p.check, b.length < 2 ^ 64) (hinner : p.inner.length < 2 ^ 64) :
    p.toContinuation.position ofWire = .ok (some p) :=
  Continuation.position_resume (reads_ofWire houter hcheck hinner)

end FlatMapPosition

namespace MergePosition

theorem reads_ofWire {p : MergePosition} (hl : p.legs.length < 2 ^ 64)
    (h : ∀ b ∈ p.legs, b.length < 2 ^ 64) : Wire.Reads ofWire p.toWire p := by
  have hash : p.planHash.toNat < 256 ^ 8 := p.planHash.toNat_lt
  have legs := Wire.reads_readList hl fun b hb => Wire.reads_readBlob (h b hb)
  have := (Wire.reads_readWord hash).bind
    (f := fun n => do return MergePosition.mk (UInt64.ofNat n) (← Wire.readList Wire.readBlob))
    (legs.map _)
  rwa [UInt64.ofNat_toNat] at this

theorem continuations_of (planHash : UInt64) (tokens : List Continuation) :
    (of planHash tokens).continuations = .ok tokens := by
  rw [continuations, of]
  induction tokens with
  | nil => rfl
  | cons t tokens ih =>
    rw [List.map_cons, List.mapM_cons, Continuation.ofBytes_toBytes, ih]
    rfl

/-- The continuations of legs are read back from a merge position. -/
theorem position_toContinuation (planHash : UInt64) {l : List Continuation}
    (hl : l.length < 2 ^ 64) (h : ∀ t ∈ l, t.toBytes.length < 2 ^ 64) :
    (of planHash l).toContinuation.position ofWire = .ok (some (of planHash l)) := by
  refine Continuation.position_resume (reads_ofWire ?_ fun b hb => ?_)
  · rwa [of, List.length_map]
  · obtain ⟨t, ht, rfl⟩ := List.mem_map.1 hb
    exact h t ht

theorem length_toContinuation (planHash : UInt64) (tokens : List Continuation) :
    (of planHash tokens).toContinuation.toBytes.length =
      17 + (tokens.map fun t => 8 + t.toBytes.length).sum := by
  have members : ∀ l : List Continuation, ((l.map Continuation.toBytes).flatMap Wire.blob).length =
      (l.map fun t => 8 + t.toBytes.length).sum := by
    intro l
    induction l with
    | nil => rfl
    | cons t l ih => rw [List.map_cons, List.flatMap_cons, List.length_append, ih, Wire.length_blob,
        List.map_cons, List.sum_cons]
  rw [toContinuation, Continuation.toBytes, List.length_cons, toWire, List.length_append, Wire.list,
    List.length_append, Wire.word64, Wire.word64, littleEndian_length, littleEndian_length]
  show 8 + (8 + ((tokens.map Continuation.toBytes).flatMap Wire.blob).length) + 1 = _
  rw [members]
  omega

end MergePosition

namespace ScoreDoc

theorem reads_ofWire (p : ScoreDoc) : Wire.Reads ofWire p.toWire p := by
  have score : p.score.bits.toNat < 256 ^ 4 := p.score.bits.toNat_lt
  have doc : p.doc.toNat < 256 ^ 8 := p.doc.toNat_lt
  have shard : p.shard.toNat < 256 ^ 4 := p.shard.toNat_lt
  have shards := (Wire.reads_readWord shard).map fun n => ScoreDoc.mk p.score p.doc (.ofNat n)
  rw [UInt32.ofNat_toNat] at shards
  have docs := (Wire.reads_readWord doc).bind (c := Wire.word32 p.shard.toNat) (y := p)
    (f := fun n => do return ScoreDoc.mk p.score (.ofNat n) (.ofNat (← Wire.readWord 4)))
    (by rwa [UInt64.ofNat_toNat])
  have scores := (Wire.reads_readWord score).bind (y := p)
    (f := fun n => do
      return ScoreDoc.mk ⟨.ofNat n⟩ (.ofNat (← Wire.readWord 8)) (.ofNat (← Wire.readWord 4)))
    (by rwa [UInt32.ofNat_toNat])
  rwa [← List.append_assoc] at scores

end ScoreDoc

end ResumableQuery
