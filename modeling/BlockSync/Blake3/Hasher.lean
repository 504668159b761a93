import BlockSync.Blake3.Compress
import BlockSync.Digest

/-!
# BLAKE3

Bytes are taken one after another. A block is 64 bytes, a chunk is 16 blocks, and the chunks are the
leaves of a binary tree whose left subtrees are all complete. The last block is held back, since
only the end of the data shows how the tree is closed; so the subtrees on the stack always have
something to their right.

* `Hasher.push`, `Hasher.update`: take one byte, or many;
* `Hasher.digest`: the digest of everything taken so far;
* `hash`: the digest of a byte string;
* `update_append`: it does not matter how the bytes are cut into parts.
-/

namespace BlockSync.Blake3

/-! ## Blocks and nodes -/

/-- The first word of a byte string, which is filled up with zeros, and the bytes after it. -/
def takeWord : Bytes → UInt32 × Bytes
  | a :: b :: c :: d :: rest =>
    (a.toUInt32 ||| (b.toUInt32 <<< 8) ||| (c.toUInt32 <<< 16) ||| (d.toUInt32 <<< 24), rest)
  | short => (UInt32.ofNat (LittleEndian.decode short), [])

/-- The first four words of a byte string, and the bytes after them. -/
def takeRow (bs : Bytes) : Row × Bytes :=
  let (x, bs) := takeWord bs
  let (y, bs) := takeWord bs
  let (z, bs) := takeWord bs
  let (w, bs) := takeWord bs
  (⟨x, y, z, w⟩, bs)

/-- The message words of a block. -/
def messageOf (bs : Bytes) : Message :=
  let (a, bs) := takeRow bs
  let (b, bs) := takeRow bs
  let (c, bs) := takeRow bs
  let (d, _) := takeRow bs
  ⟨a, b, c, d⟩

/-- The first block of a chunk. -/
def startFlag : UInt32 := 1

/-- The last block of a chunk. -/
def endFlag : UInt32 := 2

/-- An inner node of the tree. -/
def parentFlag : UInt32 := 4

/-- The root of the tree. -/
def rootFlag : UInt32 := 8

/-- A compression that is ready to be carried out, as a root or below one. -/
structure Node where
  chaining : Chaining
  message : Message
  counter : UInt64
  length : UInt32
  flags : UInt32
deriving Inhabited

namespace Node

/-- The chaining words of a node below the root. -/
def value (n : Node) : Chaining :=
  (compress n.chaining n.message n.counter n.length n.flags).chaining

/-- The digest of a node that is the root. -/
def digest (n : Node) : Digest :=
  let square := compress n.chaining n.message n.counter n.length (n.flags ||| rootFlag)
  .ofInitial square.chaining.bytes

/-- The inner node over two subtrees. -/
def parent (left right : Chaining) : Node :=
  ⟨startingWords, ⟨left.upper, left.lower, right.upper, right.lower⟩, 0, 64, parentFlag⟩

end Node

/-! ## The hasher -/

/-- The length of a block. -/
def blockBytes : Nat := 64

/-- The number of blocks in a chunk. -/
def chunkBlocks : Nat := 16

/-- What is known of the data taken so far. -/
structure Hasher where
  /-- The complete subtrees to the left with their heights, the nearest first. -/
  stack : List (Nat × Chaining)
  /-- The number of complete chunks. -/
  chunks : UInt64
  /-- The chaining words of the current chunk. -/
  chaining : Chaining
  /-- The number of blocks of the current chunk that are compressed. -/
  compressed : Nat
  /-- The block that is held back. -/
  block : Array UInt8
deriving Inhabited

namespace Hasher

/-- Nothing has been taken. -/
def empty : Hasher := ⟨[], 0, startingWords, 0, #[]⟩

/-- A complete subtree joins those of its own height, like a carry in a binary counter. -/
def carry (height : Nat) (h : Chaining) : List (Nat × Chaining) → List (Nat × Chaining)
  | [] => [(height, h)]
  | (height', left) :: rest =>
    if height' = height then carry (height + 1) (Node.parent left h).value rest
    else (height, h) :: (height', left) :: rest

/-- The flag of the block that is held back, as the first of its chunk or not. -/
def blockFlags (h : Hasher) : UInt32 := if h.compressed = 0 then startFlag else 0

/-- The block that is held back, as the last of its chunk. -/
def lastNode (h : Hasher) : Node :=
  ⟨h.chaining, messageOf h.block.toList, h.chunks, UInt32.ofNat h.block.size,
    h.blockFlags ||| endFlag⟩

/-- More data follows the block that is held back. -/
def closeBlock (h : Hasher) : Hasher :=
  if h.compressed + 1 = chunkBlocks then
    ⟨carry 0 h.lastNode.value h.stack, h.chunks + 1, startingWords, 0, #[]⟩
  else
    let message := messageOf h.block.toList
    ⟨h.stack, h.chunks, (compress h.chaining message h.chunks 64 h.blockFlags).chaining,
      h.compressed + 1, #[]⟩

/-- Take one byte. -/
def push (h : Hasher) (b : UInt8) : Hasher :=
  let h := if h.block.size = blockBytes then h.closeBlock else h
  { h with block := h.block.push b }

/-- Take many bytes. -/
def update (h : Hasher) (bs : Bytes) : Hasher := bs.foldl push h

/-- The node over the complete subtrees and the block that is held back. -/
def root (h : Hasher) : Node :=
  h.stack.foldl (fun node subtree => Node.parent subtree.2 node.value) h.lastNode

/-- The digest of everything taken so far. -/
def digest (h : Hasher) : Digest := h.root.digest

@[simp] theorem update_nil (h : Hasher) : h.update [] = h := rfl

theorem update_append (h : Hasher) (bs cs : Bytes) :
    h.update (bs ++ cs) = (h.update bs).update cs :=
  List.foldl_append

end Hasher

/-- The digest of a byte string. -/
def hash (bs : Bytes) : Digest := (Hasher.empty.update bs).digest

end BlockSync.Blake3
