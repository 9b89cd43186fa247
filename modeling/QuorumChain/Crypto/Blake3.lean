import QuorumChain.Data.Identifier

/-!
# The BLAKE3 hash

Input is cut into chunks of 1024 octets and chunks into blocks of 64.  A chunk is compressed block
by block; the chunks are the leaves of a binary tree whose left subtree is always the largest
possible complete one.  The digest is the root's compression with the root flag set.
-/

namespace QuorumChain.Blake3

/-- Eight words that summarise the part of the input below a node. -/
abbrev Chain := Vector UInt32 8

/-- The sixteen words of a message block, and of the state of a compression. -/
abbrev Words := Vector UInt32 16

/-- The initial chaining value. -/
def iv : Chain :=
  #v[0x6a09e667, 0xbb67ae85, 0x3c6ef372, 0xa54ff53a,
    0x510e527f, 0x9b05688c, 0x1f83d9ab, 0x5be0cd19]

/-- Flag of the first block of a chunk. -/
def chunkStart : UInt32 := 1

/-- Flag of the last block of a chunk. -/
def chunkEnd : UInt32 := 2

/-- Flag of a node with two children. -/
def parentNode : UInt32 := 4

/-- Flag of the compression that gives the digest. -/
def rootNode : UInt32 := 8

/-- Rotation of a word to the right. -/
@[inline] def rotate (x : UInt32) (by_ : UInt32) : UInt32 :=
  (x >>> by_) ||| (x <<< (32 - by_))

/-- Mix two message words into four words of the state. -/
@[inline] def mix (v : Words) (a b c d : Fin 16) (x y : UInt32) : Words :=
  let va := v[a] + v[b] + x
  let vd := rotate (v[d] ^^^ va) 16
  let vc := v[c] + vd
  let vb := rotate (v[b] ^^^ vc) 12
  let va := va + vb + y
  let vd := rotate (vd ^^^ va) 8
  let vc := vc + vd
  let vb := rotate (vb ^^^ vc) 7
  (((v.set a va).set b vb).set c vc).set d vd

/-- One round: all columns, then all diagonals. -/
def round (v m : Words) : Words :=
  let v := mix v 0 4 8 12 m[0] m[1]
  let v := mix v 1 5 9 13 m[2] m[3]
  let v := mix v 2 6 10 14 m[4] m[5]
  let v := mix v 3 7 11 15 m[6] m[7]
  let v := mix v 0 5 10 15 m[8] m[9]
  let v := mix v 1 6 11 12 m[10] m[11]
  let v := mix v 2 7 8 13 m[12] m[13]
  mix v 3 4 9 14 m[14] m[15]

/-- The order in which the next round takes the message words. -/
def permute (m : Words) : Words :=
  #v[m[2], m[6], m[3], m[10], m[7], m[0], m[4], m[13],
    m[1], m[11], m[12], m[5], m[9], m[14], m[15], m[8]]

/-- The given number of rounds, with the message words permuted after each. -/
def rounds : Nat → Words → Words → Words
  | 0, v, _ => v
  | k + 1, v, m => rounds k (round v m) (permute m)

/-- Everything a node's compression depends on but the root flag. -/
structure Node where
  /-- The chaining value that goes in. -/
  chain : Chain
  /-- The message words. -/
  block : Words
  /-- The place of the chunk in the input. -/
  counter : UInt64
  /-- The number of octets in the block. -/
  blockLength : UInt32
  /-- The flags of the node. -/
  flags : UInt32

/-- The chaining value that comes out, with further flags set. -/
def Node.compress (n : Node) (extra : UInt32) : Chain :=
  let h := n.chain
  let v : Words := #v[h[0], h[1], h[2], h[3], h[4], h[5], h[6], h[7],
    iv[0], iv[1], iv[2], iv[3],
    n.counter.toUInt32, (n.counter >>> 32).toUInt32, n.blockLength, n.flags ||| extra]
  let v := rounds 7 v n.block
  #v[v[0] ^^^ v[8], v[1] ^^^ v[9], v[2] ^^^ v[10], v[3] ^^^ v[11],
    v[4] ^^^ v[12], v[5] ^^^ v[13], v[6] ^^^ v[14], v[7] ^^^ v[15]]

/-- The chaining value of a node that is not the root. -/
def Node.value (n : Node) : Chain :=
  n.compress 0

/-- Little-endian words, the last one filled up with zeros. -/
def wordsOf : Octets → List UInt32
  | [] => []
  | [a] => [a.toUInt32]
  | [a, b] => [a.toUInt32 ||| (b.toUInt32 <<< 8)]
  | [a, b, c] => [a.toUInt32 ||| (b.toUInt32 <<< 8) ||| (c.toUInt32 <<< 16)]
  | a :: b :: c :: d :: rest =>
    (a.toUInt32 ||| (b.toUInt32 <<< 8) ||| (c.toUInt32 <<< 16) ||| (d.toUInt32 <<< 24))
      :: wordsOf rest

/-- A block of up to 64 octets as message words, filled up with zeros. -/
def blockOf (bytes : Octets) : Words :=
  let words := (wordsOf bytes).toArray
  Vector.ofFn fun i => words.getD i 0

/-- The node of a chunk's last block, after the blocks before it; `flags` is that of the first block
still to come. -/
def chunkBlocks (counter : UInt64) : Chain → UInt32 → List Octets → Node
  | chain, flags, [] => ⟨chain, blockOf [], counter, 0, flags ||| chunkEnd⟩
  | chain, flags, [last] =>
    ⟨chain, blockOf last, counter, UInt32.ofNat last.length, flags ||| chunkEnd⟩
  | chain, flags, block :: rest =>
    let node : Node := ⟨chain, blockOf block, counter, 64, flags⟩
    chunkBlocks counter node.value 0 rest

/-- The node of a chunk. -/
def chunkNode (counter : UInt64) (bytes : Octets) : Node :=
  chunkBlocks counter iv chunkStart (Octets.pieces 64 bytes)

/-- The node above two others. -/
def join (left right : Node) : Node :=
  let l := left.value
  let r := right.value
  ⟨iv, #v[l[0], l[1], l[2], l[3], l[4], l[5], l[6], l[7],
    r[0], r[1], r[2], r[3], r[4], r[5], r[6], r[7]], 0, 64, parentNode⟩

/-- The number of leaves on the left of a tree with `n` leaves: the largest power of two below
`n`. -/
def leftLeaves (n : Nat) : Nat :=
  Nat.pow 2 (Nat.log2 (n - 1))

/-- The tree above a list of chunk nodes; `fuel` bounds its depth. -/
def tree : Nat → List Node → Node
  | _, [] => chunkNode 0 []
  | _, [leaf] => leaf
  | 0, leaf :: _ => leaf
  | fuel + 1, leaves =>
    let k := leftLeaves leaves.length
    join (tree fuel (leaves.take k)) (tree fuel (leaves.drop k))

/-- The root node of an input. -/
def root (bytes : Octets) : Node :=
  let leaves := (Octets.pieces 1024 bytes).mapIdx fun i chunk => chunkNode (UInt64.ofNat i) chunk
  tree leaves.length leaves

/-- The octets of a word, least significant first. -/
def wordOctets (w : UInt32) : Octets :=
  [w.toUInt8, (w >>> 8).toUInt8, (w >>> 16).toUInt8, (w >>> 24).toUInt8]

/-- The digest of a string of octets. -/
def hash (bytes : Octets) : Digest :=
  Fixed.ofPadded (((root bytes).compress rootNode).toList.flatMap wordOctets)

end QuorumChain.Blake3
