import BlockSync.Failure
import BlockSync.Storage

/-!
# The basis

The old version of a file is read at any position while it is patched.

* `Basis`: what copies are read from;
* `StoredBasis`: a basis whose bytes are at hand.
-/

namespace BlockSync

/-- Bytes that can be read at any position. -/
class Basis (β : Type) where
  /-- The number of bytes. -/
  size : β → Except Fault Nat × β
  /-- The `count` bytes from `offset` on; fewer are a fault. -/
  readAt : (basis : β) → (offset count : Nat) → Except Fault Bytes × β

/-- A basis whose bytes are at hand. -/
structure StoredBasis where
  bytes : Array UInt8
deriving DecidableEq, Repr

/-- The bytes between two positions, if all of them are there. -/
def StoredBasis.read (b : StoredBasis) (offset count : Nat) : Except Fault Bytes :=
  if count = 0 ∨ offset + count ≤ b.bytes.size then .ok (slice b.bytes offset count)
  else .error .unexpectedEof

instance : Basis StoredBasis where
  size b := (.ok b.bytes.size, b)
  readAt b offset count := (b.read offset count, b)

end BlockSync
