import BlockSync.Blake3.Hasher
import BlockSync.RollingSum
import BlockSync.Signature.Params

/-!
# Signatures

The signature of a file lists for each of its blocks the rolling checksum and an initial part of the
digest. On the wire it is a header, "DSIG" and the two lengths, and then one record a block.

* `BlockSum.ofBytes`: the signature of one block;
* `Signature.ofBytes`: the signature of a file that is at hand;
* `Params.header`, `Params.ofHeader`, `BlockSum.record`, `BlockSum.ofRecord`: the parts
  of the stream;
* `Signature.encode`: the whole stream.
-/

namespace BlockSync

/-- The signature of one block. -/
structure BlockSum where
  /-- The position of the block in its file, counted in blocks. -/
  index : UInt32
  /-- The rolling checksum. -/
  weak : UInt32
  /-- The digest, of which only the part that is kept counts. -/
  strong : Digest
deriving DecidableEq

/-- The signature of the block `bs` at position `index`. -/
def BlockSum.ofBytes (index : UInt32) (bs : Bytes) (strongLength : UInt32) : BlockSum :=
  ⟨index, (RollingSum.ofBytes bs).packed, .ofInitial ((Blake3.hash bs).initial strongLength.toNat)⟩

/-- The signature of a file. -/
structure Signature where
  params : Params
  /-- The signatures of the blocks, in the order of the file. -/
  blocks : Array BlockSum
deriving DecidableEq

/-! ## Of a file at hand -/

/-- Cut a byte string into blocks of `length > 0` bytes; the last one may be shorter. -/
def blocksOf (length : Nat) : Bytes → List Bytes
  | [] => []
  | b :: bs => (b :: bs.take (length - 1)) :: blocksOf length (bs.drop (length - 1))
termination_by bs => bs.length
decreasing_by simp only [List.length_drop, List.length_cons]; omega

namespace Signature

/-- The signature of a file that is at hand. -/
def ofBytes (p : Params) (bs : Bytes) : Except Breach Signature :=
  if p.blockLength = 0 then .error .emptyBlocks
  else .ok ⟨p, ((blocksOf p.blockLength.toNat bs).mapIdx fun i block =>
    .ofBytes (UInt32.ofNat i) block p.strongLength).toArray⟩

/-- Whether there are no blocks. -/
def isEmpty (s : Signature) : Bool := s.blocks.isEmpty

end Signature

/-! ## On the wire -/

/-- The length of the header of a signature stream. -/
def signatureHeaderLength : Nat := 12

namespace Params

/-- The header of a signature stream. -/
def header (p : Params) : Bytes :=
  signatureMark ++ BigEndian.encode 4 p.blockLength.toNat ++ BigEndian.encode 4 p.strongLength.toNat

/-- The parameters in a header. -/
def ofHeader (bs : Bytes) : Except TransferError Params :=
  let mark := bs.take 4
  if mark = signatureMark then
    checked (UInt32.ofNat (BigEndian.decode ((bs.drop 4).take 4)))
      (UInt32.ofNat (BigEndian.decode ((bs.drop 8).take 4)))
  else .error (.invalidSignature (.wrongMark mark))

end Params

namespace BlockSum

/-- The record of a block. -/
def record (b : BlockSum) (strongLength : UInt32) : Bytes :=
  BigEndian.encode 4 b.weak.toNat ++ b.strong.initial strongLength.toNat

/-- The block in a record, at a position that the record does not show. -/
def ofRecord (index : UInt32) (bs : Bytes) : BlockSum :=
  ⟨index, UInt32.ofNat (BigEndian.decode (bs.take 4)), .ofInitial (bs.drop 4)⟩

end BlockSum

/-- The whole stream of a signature. -/
def Signature.encode (s : Signature) : Bytes :=
  s.params.header ++ s.blocks.toList.flatMap (·.record s.params.strongLength)

end BlockSync
