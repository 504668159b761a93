import BlockSync.Bytes

/-!
# Digests

A strong checksum is a string of 32 bytes, of which a signature keeps an initial part.

* `Digest.ofInitial`: a digest from as many of its bytes as are known, the rest zero;
* `Digest.initial`, `Digest.agrees`: the part that is kept, and agreement on it.
-/

namespace BlockSync

/-- The length of a full digest. -/
def digestLength : Nat := 32

/-- A strong checksum. -/
structure Digest where
  bytes : Bytes
  length_bytes : bytes.length = digestLength
deriving DecidableEq

namespace Digest

/-- The digest that starts with `known` and is zero after it; what exceeds a digest is dropped. -/
def ofInitial (known : Bytes) : Digest :=
  ⟨known.take digestLength ++ List.replicate (digestLength - known.length) 0, by
    simp only [List.length_append, List.length_take, List.length_replicate]; omega⟩

/-- The digest of zeros only. -/
def zero : Digest := ofInitial []

instance : Inhabited Digest := ⟨zero⟩

/-- The first `length` bytes, or all of them. -/
def initial (d : Digest) (length : Nat) : Bytes := d.bytes.take length

/-- Whether two digests agree on their first `length` bytes. -/
def agrees (d e : Digest) (length : Nat) : Bool := d.initial length == e.initial length

/-- The digest in hexadecimal digits. -/
def text (d : Digest) : String := hex d.bytes

/-- The digest in short, for people. -/
def brief (d : Digest) : String := "StrongHash(" ++ hex (d.initial 8) ++ "...)"

end Digest

end BlockSync
