import Std.Data.HashMap
import BlockSync.Signature.Basic

/-!
# Looking blocks up

A signature is indexed in two levels: the rolling checksum selects candidates, and the part of the
digest that is kept decides among them.

* `SignatureIndex.ofSignature`: the index of a signature;
* `SignatureIndex.find?`: the first block, in the order of the file, that agrees with some bytes;
* `SignatureIndex.hasWeak`: whether there are candidates at all.
-/

namespace BlockSync

/-- A signature with the candidates for each rolling checksum, in the order of the file. -/
structure SignatureIndex where
  signature : Signature
  candidates : Std.HashMap UInt32 (List BlockSum)

namespace SignatureIndex

/-- A block becomes the first candidate for its checksum. -/
def enter (b : BlockSum) (m : Std.HashMap UInt32 (List BlockSum)) :
    Std.HashMap UInt32 (List BlockSum) :=
  m.insert b.weak (b :: m.getD b.weak [])

/-- The index of a signature. -/
def ofSignature (s : Signature) : SignatureIndex := ⟨s, s.blocks.toList.foldr enter ∅⟩

variable (t : SignatureIndex)

/-- The block length. -/
def blockLength : UInt32 := t.signature.params.blockLength

/-- The number of different checksums. -/
def checksums : Nat := t.candidates.size

/-- Whether a block has this checksum. -/
def hasWeak (weak : UInt32) : Bool := t.candidates.contains weak

/-- The first block with this checksum that agrees with the digest of `bs` as far as it is kept. -/
def find? (weak : UInt32) (bs : Bytes) : Option BlockSum :=
  match t.candidates[weak]? with
  | none => none
  | some blocks =>
    let strong := Blake3.hash bs
    blocks.find? fun b => b.strong.agrees strong t.signature.params.strongLength.toNat

end SignatureIndex

end BlockSync
