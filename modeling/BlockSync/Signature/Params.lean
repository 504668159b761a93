import BlockSync.Failure

/-!
# Signature parameters

A signature cuts a file into blocks of one length and keeps an initial part of one length of each
block's digest.

* `Params.check`: both lengths are in their ranges, the block length being looked at first;
* `Params.forSize`: lengths for a file of known size, from its square root;
* `sqrt`: the square root, rounded down, whatever estimate it starts from.
-/

namespace BlockSync

/-! ## Square roots -/

/-- The largest number up to the given one whose square is at most `n`. -/
def descendToSqrt (n : Nat) : Nat → Nat
  | 0 => 0
  | r + 1 => if (r + 1) * (r + 1) ≤ n then r + 1 else descendToSqrt n r

/-- The smallest number from `r` on whose successor's square exceeds `n`. -/
def ascendToSqrt (n r : Nat) : Nat :=
  if (r + 1) * (r + 1) ≤ n then ascendToSqrt n (r + 1) else r
termination_by n - r
decreasing_by
  have : r + 1 ≤ (r + 1) * (r + 1) := Nat.le_mul_self _
  omega

/-- The square root of `n`, rounded down, found from an estimate. -/
def sqrtFrom (estimate n : Nat) : Nat := ascendToSqrt n (descendToSqrt n estimate)

/-- The square root of `n`, rounded down. -/
def sqrt (n : Nat) : Nat := sqrtFrom (Float.sqrt n.toFloat).toUInt64.toNat n

/-- The number of binary digits of `n`. -/
def binaryDigits (n : Nat) : Nat := if n = 0 then 0 else n.log2 + 1

/-! ## Parameters -/

/-- The lengths that a signature is made with. -/
structure Params where
  /-- The length of a block. -/
  blockLength : UInt32
  /-- The length of the part of a digest that is kept. -/
  strongLength : UInt32
deriving DecidableEq, Repr, Inhabited

/-- A block length in its range. -/
def checkBlockLength (n : UInt32) : Except TransferError Unit :=
  if minBlockLength ≤ n ∧ n ≤ maxBlockLength then .ok () else .error (.blockLength n)

/-- A strong length in its range. -/
def checkStrongLength (n : UInt32) : Except TransferError Unit :=
  if minStrongLength ≤ n ∧ n ≤ maxStrongLength then .ok () else .error (.strongLength n)

namespace Params

/-- Both lengths are in their ranges. -/
def check (p : Params) : Except TransferError Unit := do
  checkBlockLength p.blockLength
  checkStrongLength p.strongLength

/-- Parameters whose lengths are in their ranges. -/
def checked (blockLength strongLength : UInt32) : Except TransferError Params := do
  let p : Params := ⟨blockLength, strongLength⟩
  p.check
  return p

/-- The length of the record of a block. -/
def recordLength (p : Params) : Nat := 4 + p.strongLength.toNat

/-- The block length for a file of `size` bytes: about its square root, so that the blocks are about
as many as the bytes in one. -/
def blockLengthFor (size : Nat) : Nat :=
  if size ≤ 256 * 256 then 256 else min (sqrt size / 128 * 128) maxBlockLength.toNat

/-- The strong length for a file of `size` bytes: it grows with the number of comparisons. -/
def strongLengthFor (size : Nat) : Nat :=
  let blocks := size / blockLengthFor size + 1
  let digits := binaryDigits (min (size + 0x1000000) (UInt64.size - 1)) + binaryDigits blocks
  min (2 + (digits + 7) / 8) maxStrongLength.toNat

/-- The parameters for a file of `size` bytes. -/
def forSize (size : Nat) : Params :=
  ⟨UInt32.ofNat (blockLengthFor size), UInt32.ofNat (strongLengthFor size)⟩

end Params

end BlockSync
