import ResumableQuery.Continuation
import ResumableQuery.Numeric.Binary32

/-!
# Positions

Each kind of cursor writes its own position into the continuations it hands out.  The positions of
cursors that are built from others hold the continuations of those others, in byte form.
-/

namespace ResumableQuery

/-- Position in a list: the index of the next element. -/
structure ListPosition where
  nextIndex : UInt64
  deriving DecidableEq, Repr

/-- Position in a key range: the last key handed out. -/
structure KeyPosition where
  lastKey : Bytes
  deriving DecidableEq, Repr

/-- Position in a nested iteration: where the outer cursor stood before the current outer value,
what identifies that value, and how far its inner cursor got. -/
structure FlatMapPosition where
  outer : Bytes
  check : Option Bytes
  inner : Bytes
  deriving DecidableEq, Repr

/-- Position in a merge: the hash of its plan and the continuation of every leg. -/
structure MergePosition where
  planHash : UInt64
  legs : List Bytes
  deriving DecidableEq, Repr

/-- A document found by a search, with its score. -/
structure ScoreDoc where
  score : Binary32
  doc : UInt64
  shard : UInt32
  deriving DecidableEq, Repr, Inhabited

namespace ListPosition

/-- The wire form. -/
def toWire (p : ListPosition) : Bytes := Wire.word64 p.nextIndex.toNat

/-- Reads a list position. -/
def ofWire : Wire.Reader ListPosition := do return ⟨UInt64.ofNat (← Wire.readWord 8)⟩

/-- The continuation at this position. -/
def toContinuation (p : ListPosition) : Continuation := .resume p.toWire

end ListPosition

namespace KeyPosition

/-- The wire form. -/
def toWire (p : KeyPosition) : Bytes := Wire.blob p.lastKey

/-- Reads a key position. -/
def ofWire : Wire.Reader KeyPosition := do return ⟨← Wire.readBlob⟩

/-- The continuation at this position. -/
def toContinuation (p : KeyPosition) : Continuation := .resume p.toWire

end KeyPosition

namespace FlatMapPosition

/-- The position over two continuations. -/
def of (outer : Continuation) (check : Option Bytes) (inner : Continuation) : FlatMapPosition :=
  ⟨outer.toBytes, check, inner.toBytes⟩

/-- The wire form. -/
def toWire (p : FlatMapPosition) : Bytes :=
  Wire.blob p.outer ++ Wire.optional Wire.blob p.check ++ Wire.blob p.inner

/-- Reads a position in a nested iteration. -/
def ofWire : Wire.Reader FlatMapPosition := do
  return ⟨← Wire.readBlob, ← Wire.readOptional Wire.readBlob, ← Wire.readBlob⟩

/-- The continuation at this position. -/
def toContinuation (p : FlatMapPosition) : Continuation := .resume p.toWire

end FlatMapPosition

namespace MergePosition

/-- The position over the continuations of the legs. -/
def of (planHash : UInt64) (legs : List Continuation) : MergePosition :=
  ⟨planHash, legs.map Continuation.toBytes⟩

/-- The continuations of the legs. -/
def continuations (p : MergePosition) : Except DecodeError (List Continuation) :=
  p.legs.mapM Continuation.ofBytes

/-- The wire form. -/
def toWire (p : MergePosition) : Bytes :=
  Wire.word64 p.planHash.toNat ++ Wire.list Wire.blob p.legs

/-- Reads a position in a merge. -/
def ofWire : Wire.Reader MergePosition := do
  return ⟨UInt64.ofNat (← Wire.readWord 8), ← Wire.readList Wire.readBlob⟩

/-- The continuation at this position. -/
def toContinuation (p : MergePosition) : Continuation := .resume p.toWire

end MergePosition

namespace ScoreDoc

/-- Whether the first hit ranks after the second: it has a lower score, or the same score and a
later shard, or the same shard and a later document. -/
def ranksAfter (a b : ScoreDoc) : Bool :=
  a.score.lt b.score ||
    (a.score.numEq b.score && (b.shard < a.shard || (b.shard == a.shard && b.doc < a.doc)))

/-- The wire form. -/
def toWire (p : ScoreDoc) : Bytes :=
  Wire.word32 p.score.bits.toNat ++ Wire.word64 p.doc.toNat ++ Wire.word32 p.shard.toNat

/-- Reads a hit. -/
def ofWire : Wire.Reader ScoreDoc := do
  return ⟨⟨UInt32.ofNat (← Wire.readWord 4)⟩, UInt64.ofNat (← Wire.readWord 8),
    UInt32.ofNat (← Wire.readWord 4)⟩

/-- The continuation at this hit. -/
def toContinuation (p : ScoreDoc) : Continuation := .resume p.toWire

end ScoreDoc

end ResumableQuery
