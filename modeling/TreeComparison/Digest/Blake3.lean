import TreeComparison.Digest.Words

/-!
The BLAKE3 digest. The message is cut into chunks of 1024 bytes, each chunk into blocks of 64. The
chunks are the leaves of a binary tree whose left part is as large a power of two as fits, and the
digest is read off its root.
-/

namespace TreeComparison.Digest.Blake3

/-- The initial words, which also serve as the key of an unkeyed digest. -/
def initial : List UInt32 :=
  [0x6a09e667, 0xbb67ae85, 0x3c6ef372, 0xa54ff53a, 0x510e527f, 0x9b05688c, 0x1f83d9ab, 0x5be0cd19]

/-- Marks the first block of a chunk. -/
def chunkStart : UInt32 := 1

/-- Marks the last block of a chunk. -/
def chunkEnd : UInt32 := 2

/-- Marks the joining of two subtrees. -/
def parent : UInt32 := 4

/-- Marks the root of the tree. -/
def root : UInt32 := 8

/-- Where each message word goes between two rounds. -/
def permutation : List Nat := [2, 6, 3, 10, 7, 0, 4, 13, 1, 11, 12, 5, 9, 14, 15, 8]

/-- Stirs four words of the state with two words of the message. -/
def quarter (v : Array UInt32) (a b c d : Nat) (x y : UInt32) : Array UInt32 :=
  let va := v.getD a 0 + v.getD b 0 + x
  let vd := rotateRight (v.getD d 0 ^^^ va) 16
  let vc := v.getD c 0 + vd
  let vb := rotateRight (v.getD b 0 ^^^ vc) 12
  let va := va + vb + y
  let vd := rotateRight (vd ^^^ va) 8
  let vc := vc + vd
  let vb := rotateRight (vb ^^^ vc) 7
  (((v.setIfInBounds a va).setIfInBounds b vb).setIfInBounds c vc).setIfInBounds d vd

/-- One round: first the columns of the state, then its diagonals. -/
def round (m : Array UInt32) (v : Array UInt32) : Array UInt32 :=
  let v := quarter v 0 4 8 12 (m.getD 0 0) (m.getD 1 0)
  let v := quarter v 1 5 9 13 (m.getD 2 0) (m.getD 3 0)
  let v := quarter v 2 6 10 14 (m.getD 4 0) (m.getD 5 0)
  let v := quarter v 3 7 11 15 (m.getD 6 0) (m.getD 7 0)
  let v := quarter v 0 5 10 15 (m.getD 8 0) (m.getD 9 0)
  let v := quarter v 1 6 11 12 (m.getD 10 0) (m.getD 11 0)
  let v := quarter v 2 7 8 13 (m.getD 12 0) (m.getD 13 0)
  quarter v 3 4 9 14 (m.getD 14 0) (m.getD 15 0)

/-- Runs `n` rounds, permuting the message words between them. -/
def rounds : Nat → Array UInt32 → Array UInt32 → Array UInt32
  | 0, _, v => v
  | n + 1, m, v => rounds n (permutation.map fun i => m.getD i 0).toArray (round m v)

/-- Everything that goes into one compression. -/
structure Block where
  chaining : List UInt32
  words : List UInt32
  counter : Nat
  length : Nat
  flags : UInt32

/-- The eight words that come out of a compression. -/
def Block.compress (b : Block) (extraFlags : UInt32) : List UInt32 :=
  let start := b.chaining ++ initial.take 4 ++
    [UInt32.ofNat b.counter, UInt32.ofNat (b.counter >>> 32), UInt32.ofNat b.length,
      b.flags ||| extraFlags]
  let v := rounds 7 b.words.toArray start.toArray
  (List.range 8).map fun i => v.getD i 0 ^^^ v.getD (i + 8) 0

/-- The words of a block of at most 64 bytes, filled up with zeros. -/
def blockWords (bytes : Bytes) : List UInt32 :=
  littleEndianWords (bytes ++ List.replicate (64 - bytes.length) 0)

/-- The last block of a chunk, with the blocks before it taken in. -/
def chunkNode (counter : Nat) (chaining : List UInt32) (flags : UInt32) : List Bytes → Block
  | [] => ⟨chaining, blockWords [], counter, 0, flags ||| chunkEnd⟩
  | [last] => ⟨chaining, blockWords last, counter, last.length, flags ||| chunkEnd⟩
  | block :: rest =>
    let b : Block := ⟨chaining, blockWords block, counter, block.length, flags⟩
    chunkNode counter (b.compress 0) 0 rest

/-- The node that joins two subtrees. -/
def parentNode (left right : Block) : Block :=
  ⟨initial, left.compress 0 ++ right.compress 0, 0, 64, parent⟩

/-- The greatest power of two below `n`, for `n` of two or more. -/
def leftSize (n : Nat) : Nat := 1 <<< (n - 1).log2

theorem leftSize_pos (n : Nat) : 0 < leftSize n := by
  rw [leftSize, Nat.one_shiftLeft]
  exact Nat.two_pow_pos _

theorem leftSize_lt {n : Nat} (h : 2 ≤ n) : leftSize n < n := by
  have := Nat.log2_self_le (n := n - 1) (by omega)
  rw [leftSize, Nat.one_shiftLeft]
  omega

/-- The node above `chunks`, the first of which is number `counter`. -/
def treeNode (counter : Nat) (chunks : List Bytes) : Block :=
  if 2 ≤ chunks.length then
    let k := leftSize chunks.length
    parentNode (treeNode counter (chunks.take k)) (treeNode (counter + k) (chunks.drop k))
  else chunkNode counter initial chunkStart (blocks 64 chunks.flatten)
termination_by chunks.length
decreasing_by
  · rename_i several
    have := leftSize_lt several
    simp only [List.length_take]
    omega
  · have := leftSize_pos chunks.length
    simp only [List.length_drop]
    omega

/-- The digest of a message. -/
def digest (message : Bytes) : Bytes :=
  ((treeNode 0 (blocks 1024 message)).compress root).flatMap littleEndian

end TreeComparison.Digest.Blake3
