import BlockSync.RollingSum

/-!
# The rolling checksum in closed form

* `byteSum`, `weightedSum`: the two components of a checksum before they are reduced;
* `RollingSum.Of`: a checksum is that of a window;
* `of_ofBytes`: byte after byte the checksum of the window arises;
* **`roll_ofBytes`**: rolling gives the checksum of the window that has moved on.
-/

namespace BlockSync

/-- The sum of the bytes. -/
def byteSum : Bytes → Nat
  | [] => 0
  | b :: bs => b.toNat + byteSum bs

/-- The sum in which a byte counts once for itself and once for every byte behind it. -/
def weightedSum : Bytes → Nat
  | [] => 0
  | b :: bs => (bs.length + 1) * b.toNat + weightedSum bs

theorem byteSum_append (bs cs : Bytes) : byteSum (bs ++ cs) = byteSum bs + byteSum cs := by
  induction bs with
  | nil => simp [byteSum]
  | cons b bs ih => simp only [List.cons_append, byteSum, ih]; omega

theorem weightedSum_concat (bs : Bytes) (b : UInt8) :
    weightedSum (bs ++ [b]) = weightedSum bs + byteSum (bs ++ [b]) := by
  induction bs with
  | nil => simp [weightedSum, byteSum]
  | cons c bs ih =>
    simp only [List.cons_append, weightedSum, byteSum, ih, List.length_append, List.length_singleton]
    have : (bs.length + 1 + 1) * c.toNat = (bs.length + 1) * c.toNat + c.toNat := Nat.succ_mul _ _
    omega

namespace RollingSum

/-- The modulus as a number. -/
theorem toNat_checksumModulus : checksumModulus.toNat = 65521 := rfl

/-- The checksum `s` is that of the window `bs`. -/
structure Of (s : RollingSum) (bs : Bytes) : Prop where
  low : s.low.toNat = byteSum bs % 65521
  high : s.high.toNat = weightedSum bs % 65521
  count : s.count = bs.length

theorem Of.unique {s t : RollingSum} {bs : Bytes} (hs : s.Of bs) (ht : t.Of bs) : s = t := by
  obtain ⟨low, high, count⟩ := s
  obtain ⟨low', high', count'⟩ := t
  have hl : low = low' := UInt32.toNat_inj.mp (hs.low.trans ht.low.symm)
  have hh : high = high' := UInt32.toNat_inj.mp (hs.high.trans ht.high.symm)
  have hc : count = count' := hs.count.trans ht.count.symm
  rw [hl, hh, hc]

theorem of_push {s : RollingSum} {bs : Bytes} (h : s.Of bs) (b : UInt8) :
    (s.push b).Of (bs ++ [b]) := by
  have hb := b.toNat_lt
  have hl := h.low
  have hh := h.high
  have hsum : byteSum (bs ++ [b]) = byteSum bs + b.toNat := by
    simp [byteSum_append, byteSum]
  have hlow : (s.push b).low.toNat = byteSum (bs ++ [b]) % 65521 := by
    simp only [push, UInt32.toNat_mod, UInt32.toNat_add, UInt8.toNat_toUInt32,
      toNat_checksumModulus, hl, hsum]
    omega
  refine ⟨hlow, ?_, by simp [push, h.count]⟩
  have hp : (s.push b).high = (s.high + (s.push b).low) % checksumModulus := rfl
  rw [hp, weightedSum_concat]
  simp only [UInt32.toNat_mod, UInt32.toNat_add, toNat_checksumModulus, hlow, hh]
  omega

theorem of_foldl_push {s : RollingSum} {bs : Bytes} (h : s.Of bs) (cs : Bytes) :
    (cs.foldl push s).Of (bs ++ cs) := by
  induction cs generalizing s bs with
  | nil => simpa using h
  | cons c cs ih => simpa using ih (of_push h c)

theorem of_empty : empty.Of [] := ⟨rfl, rfl, rfl⟩

theorem of_ofBytes (bs : Bytes) : (ofBytes bs).Of bs := of_foldl_push of_empty bs

theorem low_roll {s : RollingSum} {old : UInt8} {bs : Bytes} (h : s.Of (old :: bs)) (new : UInt8) :
    (s.roll old new).low.toNat = byteSum (bs ++ [new]) % 65521 := by
  have ho := old.toNat_lt
  have hn := new.toNat_lt
  have hl := h.low
  have hsum : byteSum (bs ++ [new]) = byteSum bs + new.toNat := by
    simp [byteSum_append, byteSum]
  have hle : old.toUInt32 ≤ s.low + checksumModulus := by
    rw [UInt32.le_iff_toNat_le]
    simp only [UInt32.toNat_add, UInt8.toNat_toUInt32, toNat_checksumModulus]
    omega
  simp only [roll, UInt32.toNat_mod, UInt32.toNat_add, UInt32.toNat_sub_of_le _ _ hle,
    UInt8.toNat_toUInt32, toNat_checksumModulus, hl, hsum, byteSum]
  omega

/-- What leaves the weighted sum with a byte that was counted `n` times. -/
theorem toNat_departed (n : Nat) (old : UInt8) :
    (UInt32.ofNat (n % checksumModulus.toNat) * old.toUInt32 % checksumModulus).toNat =
      n * old.toNat % 65521 := by
  have ho := old.toNat_lt
  have hw : (UInt32.ofNat (n % checksumModulus.toNat)).toNat = n % 65521 := by
    rw [UInt32.toNat_ofNat', toNat_checksumModulus]
    omega
  have hm : n % 65521 * old.toNat % 65521 = n * old.toNat % 65521 := Nat.mod_mul_mod ..
  have hlt : n % 65521 * old.toNat ≤ 65520 * 255 := Nat.mul_le_mul (by omega) (by omega)
  rw [UInt32.toNat_mod, UInt32.toNat_mul, hw, UInt8.toNat_toUInt32, toNat_checksumModulus, ← hm]
  omega

theorem of_roll {s : RollingSum} {old : UInt8} {bs : Bytes} (h : s.Of (old :: bs)) (new : UInt8) :
    (s.roll old new).Of (bs ++ [new]) := by
  have hl := low_roll h new
  have hh := h.high
  refine ⟨hl, ?_, by simp [roll, h.count]⟩
  let departed := UInt32.ofNat (s.count % checksumModulus.toNat) * old.toUInt32 % checksumModulus
  have hroll : (s.roll old new).high =
      (s.high + checksumModulus - departed + (s.roll old new).low) % checksumModulus := rfl
  have hd : departed.toNat = (bs.length + 1) * old.toNat % 65521 := by
    simp only [departed, toNat_departed, h.count, List.length_cons]
  have hle : departed ≤ s.high + checksumModulus := by
    rw [UInt32.le_iff_toNat_le]
    simp only [UInt32.toNat_add, toNat_checksumModulus, hd, hh]
    omega
  rw [hroll, weightedSum_concat]
  simp only [UInt32.toNat_mod, UInt32.toNat_add, UInt32.toNat_sub_of_le _ _ hle,
    toNat_checksumModulus, hl, hd, hh, weightedSum]
  omega

/-- **Rolling gives the checksum of the window that has moved on.** -/
theorem roll_ofBytes (old new : UInt8) (bs : Bytes) :
    (ofBytes (old :: bs)).roll old new = ofBytes (bs ++ [new]) :=
  (of_roll (of_ofBytes (old :: bs)) new).unique (of_ofBytes _)

end RollingSum

end BlockSync
