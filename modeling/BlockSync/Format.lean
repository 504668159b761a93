import BlockSync.Bytes

/-!
# The format

What both sides of a transfer agree on before they meet.

* `signatureMark`, `deltaMark`: how the two kinds of streams begin;
* `framePayloadLimit`: what a frame can carry;
* `minBlockLength`, `maxBlockLength`, `minStrongLength`, `maxStrongLength`: the ranges of the two
  lengths that a signature is made with.
-/

namespace BlockSync

/-- The first bytes of a signature stream: "DSIG". -/
def signatureMark : Bytes := [0x44, 0x53, 0x49, 0x47]

/-- The first bytes of a delta stream: "DDLT". -/
def deltaMark : Bytes := [0x44, 0x44, 0x4c, 0x54]

/-- The largest payload of a frame: what fifteen bits can count. -/
def framePayloadLimit : Nat := 32767

/-- The smallest block length. -/
def minBlockLength : UInt32 := 64

/-- The largest block length. -/
def maxBlockLength : UInt32 := 65536

/-- The smallest strong length. -/
def minStrongLength : UInt32 := 4

/-- The largest strong length: a whole digest. -/
def maxStrongLength : UInt32 := 32

end BlockSync
