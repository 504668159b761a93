import BlockSync.Proofs.Machine.Word
import BlockSync.Proofs.Signature.Params

/-!
# Choosing parameters on a machine

The machine has a square root that may be off in either direction, and words in which not every
square fits. The estimate is lowered for as long as its square is too large, then raised for as long
as the next square is not.

* `Machine.lowerRoot`, `Machine.raiseRoot`, `Machine.root`: the square root, rounded down;
* `Machine.digits`: the number of binary digits;
* `Machine.blockLengthFrom`, `Machine.strongLengthFrom`, `Machine.recommend`: the parameters for a
  file;
* `Machine.root_eq`: the root is right from every estimate and nothing traps;
* `Params.dvd_blockLengthFor`, `Params.blockLengthFor_le`, `Params.blockLengthFor_mono`: the block
  length for a file, as a function of its size;
* **`Machine.recommend_eq`**: the parameters are those for the size, whatever the estimate was.
-/

namespace BlockSync

namespace Machine

/-! ## The program -/

/-- A product, if it fits a word. -/
def mul? (bits a b : Nat) : Option Nat := if a * b < 2 ^ bits then some (a * b) else none

/-- Lower a root while its square exceeds `n` or does not fit a word. -/
def lowerRoot (n : Nat) : Nat → Nat → Machine Nat
  | 0, _ => .error .diverged
  | steps + 1, root => do
    if (mul? 64 root root).all (n < ·) then
      let root ← sub root 1
      lowerRoot n steps root
    else
      return root

/-- Raise a root while the next square fits a word and does not exceed `n`. -/
def raiseRoot (n : Nat) : Nat → Nat → Machine Nat
  | 0, _ => .error .diverged
  | steps + 1, root => do
    let next ← add 64 root 1
    if (mul? 64 next next).any (· ≤ n) then
      raiseRoot n steps next
    else
      return root

/-- The square root of `n`, rounded down, found from an estimate. -/
def root (estimate n : Nat) : Machine Nat := do
  let root ← lowerRoot n (estimate + 1) estimate
  raiseRoot n (n + 1) root

/-- The number of binary digits of `n`, which are those behind its leading zeros. -/
def digits (n : Nat) : Machine Nat := sub 64 (BitVec.ofNat 64 n).clz.toNat

/-- A quotient of a size by a block length. -/
def div (size blockLength : Nat) : Machine Nat := do
  atMost 1 blockLength .emptyBlocks
  return size / blockLength

/-- The block length for a file of `size` bytes, from an estimate of the square root of the size. -/
def blockLengthFrom (estimate size : Nat) : Machine Nat := do
  if size ≤ 256 * 256 then
    return 256
  else
    let root ← root estimate size
    return min (root &&& (2 ^ 64 - 128)) maxBlockLength.toNat

/-- The strong length for a file of `size` bytes that is cut into blocks of this length. -/
def strongLengthFrom (size blockLength : Nat) : Machine Nat := do
  let quotient ← div size blockLength
  let blocks ← add 64 quotient 1
  let sizeDigits ← digits (min (size + 0x1000000) (2 ^ 64 - 1))
  let blockDigits ← digits blocks
  let bits ← add 32 sizeDigits blockDigits
  let rounded ← add 32 bits 7
  let length ← add 32 2 (rounded / 8)
  return min length maxStrongLength.toNat

/-- The parameters for a file of `size` bytes. -/
def recommend (estimate size : Nat) : Machine Params := do
  let blockLength ← blockLengthFrom estimate size
  let strongLength ← strongLengthFrom size blockLength
  let blockLength ← narrow 32 blockLength
  return ⟨UInt32.ofNat blockLength, UInt32.ofNat strongLength⟩

/-! ## Square roots -/

/-- A square that does not fit a word exceeds every number that does. -/
theorem all_mul?_iff {bits n : Nat} (hn : n < 2 ^ bits) (r : Nat) :
    (mul? bits r r).all (n < ·) = true ↔ n < r * r := by
  unfold mul?
  split
  · simp
  · next hlarge => simpa using hn.trans_le (Nat.not_lt.mp hlarge)

theorem any_mul?_iff {bits n : Nat} (hn : n < 2 ^ bits) (r : Nat) :
    (mul? bits r r).any (· ≤ n) = true ↔ r * r ≤ n := by
  unfold mul?
  split
  · simp
  · next hlarge => simpa using hn.trans_le (Nat.not_lt.mp hlarge)

/-- Zero is never lowered, so that nothing is taken from it. -/
theorem lowerRoot_eq {n : Nat} (hn : n < 2 ^ 64) (root : Nat) :
    ∀ steps, root < steps → lowerRoot n steps root = .ok (descendToSqrt n root) := by
  induction root with
  | zero =>
    intro steps hsteps
    obtain ⟨steps, rfl⟩ := Nat.exists_eq_add_of_lt hsteps
    rw [Nat.zero_add, lowerRoot, if_neg (mt (all_mul?_iff hn 0).mp (by omega))]
    rfl
  | succ root ih =>
    intro steps hsteps
    obtain ⟨steps, rfl⟩ : ∃ rest, steps = rest + 1 := ⟨steps - 1, by omega⟩
    rw [lowerRoot, descendToSqrt]
    by_cases hle : (root + 1) * (root + 1) ≤ n
    · rw [if_neg (mt (all_mul?_iff hn _).mp (Nat.not_lt.mpr hle)), if_pos hle]
      rfl
    · rw [if_pos ((all_mul?_iff hn _).mpr (Nat.not_le.mp hle)), if_neg hle,
        sub_of_le (Nat.le_add_left 1 root)]
      exact ih steps (by omega)

/-- The next root fits a word because the square of the last one does. -/
theorem raiseRoot_eq {n : Nat} (hn : n < 2 ^ 64) (root : Nat) (hroot : root * root ≤ n) :
    ∀ steps, n - root < steps → raiseRoot n steps root = .ok (ascendToSqrt n root) := by
  induction root using ascendToSqrt.induct n with
  | case1 root hle ih =>
    intro steps hsteps
    obtain ⟨steps, rfl⟩ : ∃ rest, steps = rest + 1 := ⟨steps - 1, by omega⟩
    have hnext : root + 1 ≤ (root + 1) * (root + 1) := Nat.le_mul_self _
    rw [raiseRoot, ascendToSqrt, if_pos hle, add_of_lt (by omega), bind_ok,
      if_pos ((any_mul?_iff hn _).mpr hle)]
    exact ih hle steps (by omega)
  | case2 root hgt =>
    intro steps hsteps
    obtain ⟨steps, rfl⟩ : ∃ rest, steps = rest + 1 := ⟨steps - 1, by omega⟩
    have hsmall : root < 2 ^ 32 := Nat.mul_self_lt_mul_self_iff.mp (by omega)
    rw [raiseRoot, ascendToSqrt, if_neg hgt, add_of_lt (by omega), bind_ok,
      if_neg (mt (any_mul?_iff hn _).mp hgt)]
    rfl

/-- **The root is right from every estimate**, and on the way to it no word is too small. -/
theorem root_eq (estimate : Nat) {n : Nat} (hn : n < 2 ^ 64) :
    root estimate n = .ok (sqrtFrom estimate n) := by
  rw [root, lowerRoot_eq hn estimate _ (Nat.lt_succ_self _), bind_ok]
  exact raiseRoot_eq hn _ (descendToSqrt_mul_self_le n estimate) _
    (Nat.lt_succ_of_le (Nat.sub_le ..))

end Machine

/-- There is only one square root. -/
theorem sqrtFrom_eq (estimate n : Nat) : sqrtFrom estimate n = Nat.sqrt n :=
  Nat.eq_sqrt.mpr (sqrtFrom_spec estimate n)

theorem sqrt_eq (n : Nat) : sqrt n = Nat.sqrt n := sqrtFrom_eq _ n

/-! ## The block length for a size -/

namespace Params

theorem le_blockLengthFor (size : Nat) : 256 ≤ blockLengthFor size := by
  have hmax : maxBlockLength.toNat = 65536 := rfl
  unfold blockLengthFor
  split
  · exact Nat.le_refl _
  · next hlarge =>
    have hs : 256 ≤ sqrt size := le_sqrt (Nat.le_of_lt (Nat.lt_of_not_le hlarge))
    rw [hmax]
    omega

theorem dvd_blockLengthFor (size : Nat) : 128 ∣ blockLengthFor size := by
  have hmax : maxBlockLength.toNat = 65536 := rfl
  unfold blockLengthFor
  split
  · exact ⟨2, rfl⟩
  · rw [hmax]
    omega

theorem blockLengthFor_le (size : Nat) : blockLengthFor size ≤ max 256 (Nat.sqrt size) := by
  unfold blockLengthFor
  split
  · exact Nat.le_max_left ..
  · rw [sqrt_eq]
    omega

theorem blockLengthFor_mono {size larger : Nat} (h : size ≤ larger) :
    blockLengthFor size ≤ blockLengthFor larger := by
  by_cases hsmall : size ≤ 256 * 256
  · rw [blockLengthFor, if_pos hsmall]
    exact le_blockLengthFor larger
  · have hs : Nat.sqrt size ≤ Nat.sqrt larger := Nat.sqrt_le_sqrt h
    rw [blockLengthFor, if_neg hsmall, blockLengthFor, if_neg (by omega), sqrt_eq, sqrt_eq]
    omega

theorem blockLength_forSize (size : Nat) : (forSize size).blockLength.toNat = blockLengthFor size :=
  UInt32.toNat_ofNat_of_lt' ((blockLengthFor_mem size).2.trans_lt (by decide))

end Params

/-! ## The parameters for a size -/

namespace Machine

/-- Without its last digits a number is the multiple below it. -/
theorem and_mask {r : Nat} (hr : r < 2 ^ 64) : r &&& (2 ^ 64 - 128) = r / 128 * 128 := by
  have hmask : 2 ^ 64 - 128 = (2 ^ 57 - 1) <<< 7 := by decide
  have hblock : r / 128 * 128 = (r >>> 7) <<< 7 := by
    rw [Nat.shiftLeft_eq, Nat.shiftRight_eq_div_pow]
  rw [hmask, hblock]
  refine Nat.eq_of_testBit_eq fun i => ?_
  rw [Nat.testBit_and, Nat.testBit_shiftLeft, Nat.testBit_shiftLeft, Nat.testBit_two_pow_sub_one,
    Nat.testBit_shiftRight]
  by_cases hi : 7 ≤ i
  · rw [Nat.add_sub_cancel' hi]
    by_cases hlast : i < 64
    · simp [hi, show i - 7 < 57 by omega]
    · have hzero : r.testBit i = false :=
        Nat.testBit_lt_two_pow (hr.trans_le (Nat.pow_le_pow_right (by decide) (by omega)))
      simp [hzero]
  · simp [hi]

theorem digits_eq {n : Nat} (hn : n < 2 ^ 64) : digits n = .ok (binaryDigits n) := by
  have hw : (BitVec.ofNat 64 n).toNat = n := by
    rw [BitVec.toNat_ofNat, Nat.mod_eq_of_lt hn]
  have hle : (BitVec.ofNat 64 n).clz.toNat ≤ 64 := BitVec.le_def.mp BitVec.clz_le
  rw [digits, sub_of_le hle, binaryDigits]
  split
  · next hzero =>
    subst hzero
    rfl
  · next hne =>
    have hne' : BitVec.ofNat 64 n ≠ 0#64 := fun hc => hne (by rw [← hw, hc]; rfl)
    have hlt : (BitVec.ofNat 64 n).clz.toNat < 64 :=
      BitVec.lt_def.mp (BitVec.clz_lt_iff_ne_zero.mpr hne')
    have hupper := BitVec.toNat_lt_two_pow_sub_clz (x := BitVec.ofNat 64 n)
    have hlower := BitVec.two_pow_sub_clz_le_toNat_of_ne_zero (by decide) hne'
    rw [hw] at hupper hlower
    have hlog : n.log2 = 63 - (BitVec.ofNat 64 n).clz.toNat :=
      (Nat.log2_eq_iff hne).mpr ⟨hlower, by
        rwa [show 63 - (BitVec.ofNat 64 n).clz.toNat + 1 = 64 - (BitVec.ofNat 64 n).clz.toNat by
          omega]⟩
    rw [hlog]
    congr 1
    omega

theorem binaryDigits_le {n : Nat} (hn : n < 2 ^ 64) : binaryDigits n ≤ 64 := by
  unfold binaryDigits
  split
  · exact Nat.zero_le _
  · next hne => exact (Nat.log2_lt hne).mpr hn

theorem blockLengthFrom_eq (estimate : Nat) {size : Nat} (hsize : size < 2 ^ 64) :
    blockLengthFrom estimate size = .ok (Params.blockLengthFor size) := by
  unfold blockLengthFrom Params.blockLengthFor
  split
  · rfl
  · have hroot : sqrtFrom estimate size < 2 ^ 64 := by
      rw [sqrtFrom_eq]
      exact (Nat.sqrt_le_self size).trans_lt hsize
    rw [root_eq estimate hsize, bind_ok, and_mask hroot, sqrtFrom_eq, sqrt_eq]
    rfl

/-- Blocks are long enough for their number to fit a word, and numbers of digits are small. -/
theorem strongLengthFrom_eq {size : Nat} (hsize : size < 2 ^ 64) :
    strongLengthFrom size (Params.blockLengthFor size) = .ok (Params.strongLengthFor size) := by
  have hblock := Params.le_blockLengthFor size
  have hquotient : size / Params.blockLengthFor size ≤ size / 256 :=
    Nat.div_le_div_left hblock (by decide)
  have hblocks : size / Params.blockLengthFor size + 1 < 2 ^ 64 := by omega
  have hsum : min (size + 0x1000000) (2 ^ 64 - 1) < 2 ^ 64 := by omega
  have hsizeDigits := binaryDigits_le hsum
  have hblockDigits := binaryDigits_le hblocks
  rw [strongLengthFrom, div, atMost_of_le _ (by omega), bind_ok, pure_eq, bind_ok, add_of_lt hblocks,
    bind_ok, digits_eq hsum, bind_ok, digits_eq hblocks, bind_ok, add_of_lt (by omega), bind_ok,
    add_of_lt (by omega), bind_ok, add_of_lt (by omega), bind_ok]
  rfl

/-- **The machine finds the parameters for the size**, whatever its estimate was, and without
dividing by zero, wrapping around or losing a digit. -/
theorem recommend_eq (estimate : Nat) {size : Nat} (hsize : size < 2 ^ 64) :
    recommend estimate size = .ok (Params.forSize size) := by
  have hnarrow : Params.blockLengthFor size < 2 ^ 32 :=
    (Params.blockLengthFor_mem size).2.trans_lt (by decide)
  rw [recommend, blockLengthFrom_eq estimate hsize, bind_ok, strongLengthFrom_eq hsize, bind_ok,
    narrow_of_lt hnarrow, bind_ok]
  rfl

end Machine

end BlockSync
