/-
BLAKE3 with a 256-bit digest.

The input is cut into chunks of 1024 bytes, a chunk into blocks of 64.
A chunk's blocks are compressed one after the other, each into the
chaining value left by the one before. The chunks are the leaves of a
binary tree: the left subtree takes the largest power of two of whole
chunks that leaves something for the right, and a parent compresses the
two chaining values below it. The last compression of all, of the only
chunk or of the top parent, is marked as the root and gives the digest.

A `Node` is a compression not yet carried out, so that the mark can
still be added to the topmost one.
-/

namespace XorSpan.Hash

-- ============================================================ compression

abbrev Chain := Vector UInt32 8

/-- The words of a block, and the state of a compression. -/
abbrev Words := Vector UInt32 16

def initialChain : Chain :=
  #v[0x6a09e667, 0xbb67ae85, 0x3c6ef372, 0xa54ff53a,
     0x510e527f, 0x9b05688c, 0x1f83d9ab, 0x5be0cd19]

def rotateRight (x : UInt32) (k : UInt32) : UInt32 :=
  (x >>> k) ||| (x <<< (32 - k))

/-- Mixes two message words into four words of the state. -/
def mix (s : Words) (a b c d : Fin 16) (x y : UInt32) : Words :=
  let va := s[a] + s[b] + x
  let vd := rotateRight (s[d] ^^^ va) 16
  let vc := s[c] + vd
  let vb := rotateRight (s[b] ^^^ vc) 12
  let va := va + vb + y
  let vd := rotateRight (vd ^^^ va) 8
  let vc := vc + vd
  let vb := rotateRight (vb ^^^ vc) 7
  (((s.set a va).set b vb).set c vc).set d vd

/-- One round: the columns, then the diagonals. -/
def round (s m : Words) : Words :=
  let s := mix s 0 4 8 12 m[0] m[1]
  let s := mix s 1 5 9 13 m[2] m[3]
  let s := mix s 2 6 10 14 m[4] m[5]
  let s := mix s 3 7 11 15 m[6] m[7]
  let s := mix s 0 5 10 15 m[8] m[9]
  let s := mix s 1 6 11 12 m[10] m[11]
  let s := mix s 2 7 8 13 m[12] m[13]
  mix s 3 4 9 14 m[14] m[15]

/-- The order in which the next round takes the message words. -/
def permute (m : Words) : Words :=
  #v[m[2], m[6], m[3], m[10], m[7], m[0], m[4], m[13],
     m[1], m[11], m[12], m[5], m[9], m[14], m[15], m[8]]

/-- `n` rounds, the message words permuted in between. -/
def rounds : Nat → Words → Words → Words
  | 0, s, _ => s
  | n + 1, s, m => rounds n (round s m) (permute m)

def chunkStart : UInt32 := 1
def chunkEnd : UInt32 := 2
def parent : UInt32 := 4
def root : UInt32 := 8

/-- A compression to be carried out. -/
structure Node where
  chain : Chain
  block : Words
  counter : UInt64
  length : UInt32
  flags : UInt32

/-- The first eight words that a compression yields. -/
def Node.output (n : Node) : Chain :=
  let h := n.chain
  let v := initialChain
  let s := rounds 7
    #v[h[0], h[1], h[2], h[3], h[4], h[5], h[6], h[7], v[0], v[1], v[2], v[3],
       n.counter.toUInt32, (n.counter >>> 32).toUInt32, n.length,
       n.flags] n.block
  Vector.ofFn fun i : Fin 8 => s[i.val] ^^^ s[i.val + 8]

-- ============================================================== the tree

/-- The words of at most 64 bytes, little-endian, padded with zeros. -/
def blockWords (bytes : List UInt8) : Words :=
  let a := bytes.toArray
  let byteAt (i : Nat) : UInt32 := (a.getD i 0).toUInt32
  Vector.ofFn fun i : Fin 16 =>
    byteAt (4 * i) ||| (byteAt (4 * i + 1) <<< 8) |||
      (byteAt (4 * i + 2) <<< 16) |||
      (byteAt (4 * i + 3) <<< 24)

/-- The last compression of a chunk, the earlier ones carried out. -/
def chunkNode (counter : UInt64) (chain : Chain) (flags : UInt32)
    (bytes : List UInt8) : Node :=
  if bytes.length ≤ 64 then
    ⟨chain, blockWords bytes, counter, bytes.length.toUInt32,
      flags ||| chunkEnd⟩
  else
    let block : Node := ⟨chain, blockWords (bytes.take 64), counter, 64, flags⟩
    chunkNode counter block.output 0 (bytes.drop 64)
termination_by bytes.length
decreasing_by
  simp only [List.length_drop]
  omega

/-- The bytes that go into the left subtree of `n` bytes. -/
def leftLength (n : Nat) : Nat := 1024 * Nat.pow 2 ((n - 1) / 1024).log2

theorem leftLength_pos (n : Nat) : 0 < leftLength n :=
  Nat.mul_pos (by decide) (Nat.two_pow_pos _)

theorem leftLength_lt {n : Nat} (h : 1024 < n) : leftLength n < n := by
  have hle : Nat.pow 2 ((n - 1) / 1024).log2 ≤ (n - 1) / 1024 :=
    Nat.log2_self_le (by omega)
  unfold leftLength
  omega

/-- The last compression of the subtree over `bytes`, whose first
chunk has the number `counter`. -/
def treeNode (counter : UInt64) (bytes : List UInt8) : Node :=
  if _h : bytes.length ≤ 1024 then
    chunkNode counter initialChain chunkStart bytes
  else
    let k := leftLength bytes.length
    let left := (treeNode counter (bytes.take k)).output
    let right :=
      (treeNode (counter + (k / 1024).toUInt64) (bytes.drop k)).output
    ⟨initialChain, (left ++ right).cast rfl, 0, 64, parent⟩
termination_by bytes.length
decreasing_by
  all_goals
    have hpos := leftLength_pos bytes.length
    have hlt := leftLength_lt (n := bytes.length) (by omega)
    simp
    omega

/-- The digest of a byte sequence. -/
def blake3 (bytes : List UInt8) : List UInt8 :=
  let top := treeNode 0 bytes
  let chain := { top with flags := top.flags ||| root }.output
  chain.toList.flatMap fun w : UInt32 =>
    [w.toUInt8, (w >>> 8).toUInt8, (w >>> 16).toUInt8, (w >>> 24).toUInt8]

/-- The digest in lower-case hex, as fingerprints are written. -/
def fingerprint (bytes : List UInt8) : String :=
  String.ofList ((blake3 bytes).flatMap fun x =>
    [Nat.digitChar (x.toNat / 16), Nat.digitChar (x.toNat % 16)])

end XorSpan.Hash
