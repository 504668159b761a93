/-!
# Byte strings

Everything that travels or is stored is a list of bytes.

* `BigEndian.encode`, `BigEndian.decode`: fixed-width numbers, most significant byte first;
* `LittleEndian.encode`, `LittleEndian.decode`: the same, least significant byte first;
* `encode_decode`: a byte string is the encoding of the number that it writes;
* `hex`, `decimals`: the two ways in which bytes are shown to a reader.
-/

namespace BlockSync

/-- A byte string. -/
abbrev Bytes := List UInt8

/-! ## Numbers of fixed width -/

namespace LittleEndian

/-- The `width` low-order bytes of `n`, least significant first. -/
def encode : Nat → Nat → Bytes
  | 0, _ => []
  | width + 1, n => UInt8.ofNat n :: encode width (n / 256)

/-- The number that a byte string writes, least significant byte first. -/
def decode : Bytes → Nat
  | [] => 0
  | b :: bs => b.toNat + 256 * decode bs

@[simp] theorem length_encode (width n : Nat) : (encode width n).length = width := by
  induction width generalizing n with
  | zero => rfl
  | succ width ih => simp [encode, ih]

theorem encode_decode (bs : Bytes) : encode bs.length (decode bs) = bs := by
  induction bs with
  | nil => rfl
  | cons b bs ih =>
    have hb := b.toNat_lt
    have hdiv : (b.toNat + 256 * decode bs) / 256 = decode bs := by omega
    have hmod : UInt8.ofNat (b.toNat + 256 * decode bs) = b := by
      apply UInt8.toNat_inj.mp
      simp only [UInt8.toNat_ofNat']
      omega
    simp only [List.length_cons, encode, decode, hdiv, hmod, ih]

end LittleEndian

namespace BigEndian

/-- The `width` low-order bytes of `n`, most significant first. -/
def encode (width n : Nat) : Bytes := (LittleEndian.encode width n).reverse

/-- The number that a byte string writes, most significant byte first. -/
def decode (bs : Bytes) : Nat := LittleEndian.decode bs.reverse

@[simp] theorem length_encode (width n : Nat) : (encode width n).length = width := by
  simp [encode]

theorem encode_decode (bs : Bytes) : encode bs.length (decode bs) = bs := by
  have h := LittleEndian.encode_decode bs.reverse
  simp only [List.length_reverse] at h
  simp [encode, decode, h]

end BigEndian

/-! ## Shown to a reader -/

/-- A byte string as two lower-case hexadecimal digits a byte. -/
def hex (bs : Bytes) : String :=
  String.ofList (bs.flatMap fun b => [Nat.digitChar (b.toNat / 16), Nat.digitChar (b.toNat % 16)])

/-- A byte string as a bracketed list of decimal numbers. -/
def decimals (bs : Bytes) : String :=
  "[" ++ ", ".intercalate (bs.map fun b => toString b.toNat) ++ "]"

end BlockSync
