import BlockSync.Digest
import BlockSync.Failure

/-!
# Delta instructions

A delta tells how to build a new file from a basis: copy a range of the basis, insert bytes, and at
the end close with the digest of the file that was built. On the wire the instructions follow the
mark "DDLT".

* `Instruction`: one instruction;
* `Instruction.fileLength`, `Instruction.wireLength`: its size in the new file and on the wire;
* `Instruction.encode`: its bytes on the wire;
* `DeltaTotals`: what the instructions of a delta add up to.
-/

namespace BlockSync

/-- The opcode of closing. -/
def closeOpcode : UInt8 := 0

/-- The opcode of a copy. -/
def copyOpcode : UInt8 := 1

/-- The opcode of an insertion. -/
def insertOpcode : UInt8 := 2

/-- One instruction of a delta. -/
inductive Instruction where
  /-- Copy `length` bytes of the basis from `offset` on. -/
  | copy (offset : UInt64) (length : UInt32)
  /-- Insert bytes. -/
  | insert (bytes : Bytes)
  /-- Nothing follows, and this is the digest of the new file. -/
  | close (checksum : Digest)
deriving DecidableEq

namespace Instruction

/-- How many bytes of the new file the instruction makes. -/
def fileLength : Instruction → Nat
  | copy _ length => length.toNat
  | insert bs => bs.length
  | close _ => 0

/-- How many bytes the instruction takes on the wire. -/
def wireLength : Instruction → Nat
  | copy _ _ => 13
  | insert bs => 5 + bs.length
  | close _ => 1 + digestLength

/-- The instruction on the wire. -/
def encode : Instruction → Bytes
  | copy offset length =>
    copyOpcode :: BigEndian.encode 8 offset.toNat ++ BigEndian.encode 4 length.toNat
  | insert bs => insertOpcode :: BigEndian.encode 4 bs.length ++ bs
  | close checksum => closeOpcode :: checksum.bytes

theorem length_encode (i : Instruction) : i.encode.length = i.wireLength := by
  cases i with
  | copy => simp [encode, wireLength]
  | insert => simp [encode, wireLength]; omega
  | close checksum => simp [encode, wireLength, checksum.length_bytes, digestLength]

end Instruction

/-! ## Totals -/

/-- What the instructions of a delta add up to. -/
structure DeltaTotals where
  /-- The number of copies. -/
  copies : Nat
  /-- The number of insertions. -/
  inserts : Nat
  /-- The number of bytes copied. -/
  copied : Nat
  /-- The number of bytes inserted. -/
  inserted : Nat
deriving DecidableEq, Repr

namespace DeltaTotals

/-- No instructions. -/
def zero : DeltaTotals := ⟨0, 0, 0, 0⟩

instance : Inhabited DeltaTotals := ⟨zero⟩

/-- One instruction more; closing does not count. -/
def add (t : DeltaTotals) : Instruction → DeltaTotals
  | .copy _ length => { t with copies := t.copies + 1, copied := t.copied + length.toNat }
  | .insert bs => { t with inserts := t.inserts + 1, inserted := t.inserted + bs.length }
  | .close _ => t

/-- The size of the new file. -/
def total (t : DeltaTotals) : Nat := t.copied + t.inserted

/-- The share of the new file that is copied; all of an empty file is. -/
def reuse (t : DeltaTotals) : Float :=
  if t.total = 0 then 1.0
  else (UInt64.ofNat t.copied).toFloat / (UInt64.ofNat t.total).toFloat

end DeltaTotals

end BlockSync
