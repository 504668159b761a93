import BlockSync.Signature.Params

/-!
# Parameters in their ranges

* `Params.check_iff`: which parameters pass their check;
* `Params.checked_iff`, `Params.checked_eq`: checked parameters are those that were given, and of two
  lengths out of their ranges the block length is refused;
* `sqrtFrom_spec`: square roots are right whatever estimate they start from;
* **`Params.forSize_valid`**: the parameters for a file of any size pass their check.
-/

namespace BlockSync

theorem checkBlockLength_iff (n : UInt32) :
    checkBlockLength n = .ok () ↔ minBlockLength ≤ n ∧ n ≤ maxBlockLength := by
  unfold checkBlockLength
  split <;> simp_all

theorem checkStrongLength_iff (n : UInt32) :
    checkStrongLength n = .ok () ↔ minStrongLength ≤ n ∧ n ≤ maxStrongLength := by
  unfold checkStrongLength
  split <;> simp_all

namespace Params

/-- Both lengths are in their ranges. -/
structure Valid (p : Params) : Prop where
  le_blockLength : 64 ≤ p.blockLength.toNat
  blockLength_le : p.blockLength.toNat ≤ 65536
  le_strongLength : 4 ≤ p.strongLength.toNat
  strongLength_le : p.strongLength.toNat ≤ 32

theorem check_iff (p : Params) : p.check = .ok () ↔ p.Valid := by
  have hb := checkBlockLength_iff p.blockLength
  have hs := checkStrongLength_iff p.strongLength
  rw [UInt32.le_iff_toNat_le, UInt32.le_iff_toNat_le] at hb hs
  constructor
  · intro h
    have hb' : checkBlockLength p.blockLength = .ok () := by
      cases hc : checkBlockLength p.blockLength with
      | ok => rfl
      | error e => simp [check, hc, bind, Except.bind] at h
    have hs' : checkStrongLength p.strongLength = .ok () := by
      simpa [check, hb', bind, Except.bind] using h
    obtain ⟨h₁, h₂⟩ := hb.mp hb'
    obtain ⟨h₃, h₄⟩ := hs.mp hs'
    exact ⟨h₁, h₂, h₃, h₄⟩
  · intro h
    have hb' := hb.mpr ⟨h.le_blockLength, h.blockLength_le⟩
    have hs' := hs.mpr ⟨h.le_strongLength, h.strongLength_le⟩
    simp [check, hb', hs', bind, Except.bind]

theorem checked_iff (b s : UInt32) (p : Params) :
    checked b s = .ok p ↔ p = ⟨b, s⟩ ∧ p.Valid := by
  unfold checked
  constructor
  · intro h
    cases hc : (⟨b, s⟩ : Params).check with
    | error e => simp [hc, bind, Except.bind] at h
    | ok u =>
      obtain rfl : (⟨b, s⟩ : Params) = p := by
        simpa [hc, bind, Except.bind, pure, Except.pure] using h
      exact ⟨rfl, (check_iff _).mp hc⟩
  · rintro ⟨rfl, h⟩
    simp [(check_iff _).mpr h, bind, Except.bind, pure, Except.pure]

/-- The block length is looked at before the strong length. -/
theorem checked_eq (b s : UInt32) :
    checked b s = if b.toNat < 64 ∨ 65536 < b.toNat then .error (.blockLength b)
      else if s.toNat < 4 ∨ 32 < s.toNat then .error (.strongLength s) else .ok ⟨b, s⟩ := by
  have hb : (minBlockLength ≤ b ∧ b ≤ maxBlockLength) ↔ ¬ (b.toNat < 64 ∨ 65536 < b.toNat) := by
    rw [UInt32.le_iff_toNat_le, UInt32.le_iff_toNat_le, not_or, Nat.not_lt, Nat.not_lt]
    exact Iff.rfl
  have hs : (minStrongLength ≤ s ∧ s ≤ maxStrongLength) ↔ ¬ (s.toNat < 4 ∨ 32 < s.toNat) := by
    rw [UInt32.le_iff_toNat_le, UInt32.le_iff_toNat_le, not_or, Nat.not_lt, Nat.not_lt]
    exact Iff.rfl
  simp only [checked, check, checkBlockLength, checkStrongLength, hb, hs, ite_not]
  split
  · rfl
  · split <;> rfl

end Params

/-! ## Square roots -/

theorem descendToSqrt_mul_self_le (n r : Nat) : descendToSqrt n r * descendToSqrt n r ≤ n := by
  induction r with
  | zero => exact Nat.zero_le n
  | succ r ih =>
    rw [descendToSqrt]
    split
    · assumption
    · exact ih

theorem ascendToSqrt_spec {n r : Nat} (h : r * r ≤ n) :
    ascendToSqrt n r * ascendToSqrt n r ≤ n ∧
      n < (ascendToSqrt n r + 1) * (ascendToSqrt n r + 1) := by
  induction r using ascendToSqrt.induct n with
  | case1 r hle ih =>
    rw [ascendToSqrt, if_pos hle]
    exact ih hle
  | case2 r hgt =>
    rw [ascendToSqrt, if_neg hgt]
    exact ⟨h, Nat.lt_of_not_le hgt⟩

/-- **Whatever the estimate, the square root that is found from it is right.** -/
theorem sqrtFrom_spec (estimate n : Nat) :
    sqrtFrom estimate n * sqrtFrom estimate n ≤ n ∧
      n < (sqrtFrom estimate n + 1) * (sqrtFrom estimate n + 1) :=
  ascendToSqrt_spec (descendToSqrt_mul_self_le n estimate)

theorem le_sqrt {m n : Nat} (h : m * m ≤ n) : m ≤ sqrt n := by
  have hs := (sqrtFrom_spec (Float.sqrt n.toFloat).toUInt64.toNat n).2
  exact Nat.le_of_lt_succ (Nat.mul_self_lt_mul_self_iff.mp (Nat.lt_of_le_of_lt h hs))

/-! ## Parameters for a file -/

namespace Params

theorem blockLengthFor_mem (size : Nat) : 64 ≤ blockLengthFor size ∧ blockLengthFor size ≤ 65536 := by
  have hmax : maxBlockLength.toNat = 65536 := rfl
  unfold blockLengthFor
  split
  · exact ⟨by decide, by decide⟩
  · next hlarge =>
    have hs : 256 ≤ sqrt size := le_sqrt (Nat.le_of_lt (Nat.lt_of_not_le hlarge))
    rw [hmax]
    omega

theorem strongLengthFor_mem (size : Nat) :
    4 ≤ strongLengthFor size ∧ strongLengthFor size ≤ 32 := by
  have hmax : maxStrongLength.toNat = 32 := rfl
  have hdigits : 24 ≤ binaryDigits (min (size + 0x1000000) (UInt64.size - 1)) := by
    have hle : 2 ^ 24 ≤ min (size + 0x1000000) (UInt64.size - 1) :=
      Nat.le_min.mpr ⟨Nat.le_add_left _ _, by decide⟩
    have hne : min (size + 0x1000000) (UInt64.size - 1) ≠ 0 := fun h0 => by omega
    rw [binaryDigits, if_neg hne]
    exact Nat.le_succ_of_le ((Nat.le_log2 hne).mpr hle)
  simp only [strongLengthFor, hmax]
  omega

/-- **The lengths for a file of any size are in their ranges.** -/
theorem forSize_valid (size : Nat) : (forSize size).Valid := by
  obtain ⟨hb, hb'⟩ := blockLengthFor_mem size
  obtain ⟨hs, hs'⟩ := strongLengthFor_mem size
  have hbn : (UInt32.ofNat (blockLengthFor size)).toNat = blockLengthFor size :=
    UInt32.toNat_ofNat_of_lt' (Nat.lt_of_le_of_lt hb' (by decide))
  have hsn : (UInt32.ofNat (strongLengthFor size)).toNat = strongLengthFor size :=
    UInt32.toNat_ofNat_of_lt' (Nat.lt_of_le_of_lt hs' (by decide))
  constructor <;> simp only [forSize, hbn, hsn] <;> assumption

end Params

end BlockSync
