import Mathlib
import BlockSync.Bytes

/-!
# Numbers of fixed width

* `decode_encode`: of a number, encoding keeps as many low-order bytes as there is width;
* `decode_lt`: what a byte string writes is bounded by its length;
* `BigEndian.decode_word`, `BigEndian.encode_word`: words and strings of four bytes are the same.
-/

namespace BlockSync

namespace LittleEndian

theorem decode_encode (width n : Nat) : decode (encode width n) = n % 256 ^ width := by
  induction width generalizing n with
  | zero => simp [encode, decode, Nat.mod_one]
  | succ width ih =>
    have hpow : 256 ^ (width + 1) = 256 * 256 ^ width := by rw [Nat.pow_succ, Nat.mul_comm]
    simp only [encode, decode, ih, UInt8.toNat_ofNat', hpow, Nat.mod_mul]

theorem decode_lt (bs : Bytes) : decode bs < 256 ^ bs.length := by
  induction bs with
  | nil => simp [decode]
  | cons b bs ih =>
    have hb := b.toNat_lt
    simp only [decode, List.length_cons, Nat.pow_succ]
    omega

end LittleEndian

namespace BigEndian

theorem decode_encode (width n : Nat) : decode (encode width n) = n % 256 ^ width := by
  simp [encode, decode, LittleEndian.decode_encode]

/-- Numbers that there is width for are told apart. -/
theorem encode_inj {width m n : Nat} (hm : m < 256 ^ width) (hn : n < 256 ^ width)
    (h : encode width m = encode width n) : m = n := by
  have hd := congrArg decode h
  rwa [decode_encode, decode_encode, Nat.mod_eq_of_lt hm, Nat.mod_eq_of_lt hn] at hd

theorem decode_lt (bs : Bytes) : decode bs < 256 ^ bs.length := by
  simpa [decode] using LittleEndian.decode_lt bs.reverse

theorem decode_word (n : UInt32) : UInt32.ofNat (decode (encode 4 n.toNat)) = n := by
  rw [decode_encode, Nat.mod_eq_of_lt (show n.toNat < 256 ^ 4 from n.toNat_lt), UInt32.ofNat_toNat]

theorem encode_word {bs : Bytes} (h : bs.length = 4) :
    encode 4 (UInt32.ofNat (decode bs)).toNat = bs := by
  have hlt : decode bs < 256 ^ 4 := h ▸ decode_lt bs
  rw [UInt32.toNat_ofNat_of_lt' hlt, ← h, encode_decode]

end BigEndian

end BlockSync
