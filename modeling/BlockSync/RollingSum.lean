import BlockSync.Bytes

/-!
# The rolling checksum

A checksum of a window of bytes that follows the window along a file at a constant cost a byte. It
has two components modulo the prime 65521: the sum of the bytes, and the sum of the sums of all
initial parts, in which byte `i` of `n` counts `n - i` times.

* `RollingSum.ofBytes`: the checksum of a window, byte after byte;
* `RollingSum.roll`: the window moves on by one byte;
* `RollingSum.packed`: both components in one word.
-/

namespace BlockSync

/-- The largest prime below `2 ^ 16`. -/
def checksumModulus : UInt32 := 65521

/-- The checksum of a window of `count` bytes. -/
structure RollingSum where
  /-- The sum of the bytes. -/
  low : UInt32
  /-- The sum of the sums of all nonempty initial parts. -/
  high : UInt32
  /-- The length of the window. -/
  count : Nat
deriving DecidableEq, Repr

namespace RollingSum

/-- The checksum of the empty window. -/
def empty : RollingSum := ⟨0, 0, 0⟩

instance : Inhabited RollingSum := ⟨empty⟩

/-- The window grows by a byte at its back. -/
def push (s : RollingSum) (b : UInt8) : RollingSum :=
  let low := (s.low + b.toUInt32) % checksumModulus
  ⟨low, (s.high + low) % checksumModulus, s.count + 1⟩

/-- The checksum of a window. -/
def ofBytes (bs : Bytes) : RollingSum := bs.foldl push empty

/-- The window moves on by one byte: `old` leaves at the front and `new` arrives at the back. -/
def roll (s : RollingSum) (old new : UInt8) : RollingSum :=
  let low := (s.low + checksumModulus - old.toUInt32 + new.toUInt32) % checksumModulus
  let weight := UInt32.ofNat (s.count % checksumModulus.toNat)
  let departed := weight * old.toUInt32 % checksumModulus
  ⟨low, (s.high + checksumModulus - departed + low) % checksumModulus, s.count⟩

/-- Both components in one word. -/
def packed (s : RollingSum) : UInt32 := (s.high <<< 16) ||| s.low

/-- Whether the window is empty. -/
def isEmpty (s : RollingSum) : Bool := s.count == 0

@[simp] theorem ofBytes_nil : ofBytes [] = empty := rfl

end RollingSum

end BlockSync
