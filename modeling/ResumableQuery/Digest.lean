import ResumableQuery.Bytes
import ResumableQuery.Numeric.Power

/-!
# Content digest

Plans are identified by the BLAKE3 hash of a description of them.  The hash cuts its input into
chunks of 1024 bytes and each chunk into blocks of 64, compresses the blocks of a chunk one after
the other, and joins the chunks in a binary tree whose left side is as full as possible.
-/

namespace ResumableQuery.Digest

/-- Eight words that stand for everything compressed so far. -/
abbrev Chain := Vector UInt32 8

/-- The sixteen words of a block, or of a compression state. -/
abbrev Words := Vector UInt32 16

/-- The chain that hashing starts from. -/
def initial : Chain :=
  #v[0x6A09E667, 0xBB67AE85, 0x3C6EF372, 0xA54FF53A, 0x510E527F, 0x9B05688C, 0x1F83D9AB, 0x5BE0CD19]

/-- Flag of the first block of a chunk. -/
def chunkStart : UInt32 := 1

/-- Flag of the last block of a chunk. -/
def chunkEnd : UInt32 := 2

/-- Flag of a block that joins two subtrees. -/
def parent : UInt32 := 4

/-- Flag of the last compression. -/
def root : UInt32 := 8

/-- A word with its bits moved to the right, the last ones coming back in front. -/
def rotateRight (x n : UInt32) : UInt32 := (x >>> n) ||| (x <<< (32 - n))

/-- Mixes two message words into four words of the state. -/
def mix (s : Words) (a b c d : Fin 16) (x y : UInt32) : Words :=
  let s := s.set a (s[a] + s[b] + x)
  let s := s.set d (rotateRight (s[d] ^^^ s[a]) 16)
  let s := s.set c (s[c] + s[d])
  let s := s.set b (rotateRight (s[b] ^^^ s[c]) 12)
  let s := s.set a (s[a] + s[b] + y)
  let s := s.set d (rotateRight (s[d] ^^^ s[a]) 8)
  let s := s.set c (s[c] + s[d])
  s.set b (rotateRight (s[b] ^^^ s[c]) 7)

/-- One round: the columns of the state are mixed, then its diagonals. -/
def round (s m : Words) : Words :=
  let s := mix s 0 4 8 12 m[0] m[1]
  let s := mix s 1 5 9 13 m[2] m[3]
  let s := mix s 2 6 10 14 m[4] m[5]
  let s := mix s 3 7 11 15 m[6] m[7]
  let s := mix s 0 5 10 15 m[8] m[9]
  let s := mix s 1 6 11 12 m[10] m[11]
  let s := mix s 2 7 8 13 m[12] m[13]
  mix s 3 4 9 14 m[14] m[15]

/-- The message words in the order of the next round. -/
def permute (m : Words) : Words :=
  #v[m[2], m[6], m[3], m[10], m[7], m[0], m[4], m[13], m[1], m[11], m[12], m[5], m[9], m[14], m[15],
    m[8]]

/-- `n` rounds. -/
def rounds : Nat → Words → Words → Words
  | 0, s, _ => s
  | n + 1, s, m => rounds n (round s m) (permute m)

/-- A compression that is still to be made, so that the last one can carry the root flag. -/
structure Pending where
  chain : Chain
  block : Words
  counter : Nat
  length : Nat
  flags : UInt32

/-- The chain that a compression yields. -/
def Pending.run (p : Pending) : Chain :=
  let h := p.chain
  let s : Words :=
    #v[h[0], h[1], h[2], h[3], h[4], h[5], h[6], h[7],
      initial[0], initial[1], initial[2], initial[3],
      UInt32.ofNat p.counter, UInt32.ofNat (p.counter / UInt32.size),
      UInt32.ofNat p.length, p.flags]
  let s := rounds 7 s p.block
  Vector.ofFn fun i => s.get ⟨i.val, by omega⟩ ^^^ s.get ⟨i.val + 8, by omega⟩

/-- The words of at most 64 bytes, with zeros after them. -/
def wordsOf (b : Bytes) : Words :=
  Vector.ofFn fun i => UInt32.ofNat (ofLittleEndian ((b.drop (4 * i.val)).take 4))

/-- The last compression of a chunk, given its blocks from the one that follows `chain`. -/
def chunkFrom (counter : Nat) : (blocks : Nat) → Chain → UInt32 → Bytes → Pending
  | blocks + 1, chain, flags, b =>
    if b.length ≤ 64 then ⟨chain, wordsOf b, counter, b.length, flags ||| chunkEnd⟩
    else
      chunkFrom counter blocks (Pending.run ⟨chain, wordsOf (b.take 64), counter, 64, flags⟩) 0
        (b.drop 64)
  | 0, chain, flags, b => ⟨chain, wordsOf b, counter, b.length, flags ||| chunkEnd⟩

/-- The last compression of a chunk of at most 1024 bytes. -/
def chunk (counter : Nat) (b : Bytes) : Pending := chunkFrom counter 16 initial chunkStart b

/-- The compression that joins two subtrees. -/
def join (left right : Chain) : Pending :=
  ⟨initial, left ++ right, 0, 64, parent⟩

/-- Number of chunks of a byte string; an empty one is one chunk. -/
def chunkCount (b : Bytes) : Nat := max 1 ((b.length + 1023) / 1024)

/-- The last compression of the tree over a byte string whose first chunk has number `counter`.
A tree of `n` chunks has depth at most `log2 n + 1`, which bounds the recursion. -/
def tree : (depth : Nat) → (counter : Nat) → Bytes → Pending
  | 0, counter, b => chunk counter b
  | depth + 1, counter, b =>
    let n := chunkCount b
    if n ≤ 1 then chunk counter b
    else
      let left := twoPow (n - 1).log2
      join (tree depth counter (b.take (1024 * left))).run
        (tree depth (counter + left) (b.drop (1024 * left))).run

/-- The first eight bytes of the hash, as a number whose least significant byte is the first. -/
def hash64 (b : Bytes) : UInt64 :=
  let p := tree ((chunkCount b).log2 + 1) 0 b
  let h := Pending.run { p with flags := p.flags ||| root }
  UInt64.ofNat (h[0].toNat + h[1].toNat * UInt32.size)

end ResumableQuery.Digest
