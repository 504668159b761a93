import BlockSync.Proofs.Machine.Word
import BlockSync.Proofs.RollingSum

/-!
# The rolling checksum in words

On the machine both sums of a window are added up in one pass and reduced now and then, and rolling
subtracts what has left the window.

* `RollingSum.compute`, `RollingSum.slide`: the checksum of a window, and of the window that has moved
  on;
* **`RollingSum.compute_eq`**, **`RollingSum.slide_eq`**: no sum, difference or product traps, and the
  checksums are those of the windows.
-/

namespace BlockSync

namespace RollingSum

open Machine

/-- Add up what is left of a window of `length` bytes, behind the first `i`. -/
def sums (length : Nat) : Nat → Nat → Nat → Bytes → Machine (Nat × Nat)
  | _, low, high, [] => return (low, high)
  | i, low, high, b :: bs => do
    let low ← add 64 low b.toNat
    let weight ← sub length i
    let high ← add 64 high (← mul 64 weight b.toNat)
    -- the sums stay small in windows of any length
    if i % 4096 = 4095 then sums length (i + 1) (low % 65521) (high % 65521) bs
    else sums length (i + 1) low high bs

/-- The checksum of a window. -/
def compute (bs : Bytes) : Machine RollingSum := do
  let (low, high) ← sums bs.length 0 0 0 bs
  let low ← narrow 32 (low % 65521)
  let high ← narrow 32 (high % 65521)
  return ⟨UInt32.ofNat low, UInt32.ofNat high, bs.length⟩

/-- The checksum of the window that has moved on. -/
def slide (s : RollingSum) (old new : UInt8) : Machine RollingSum := do
  let kept ← sub (← add 64 s.low.toNat 65521) old.toNat
  let low := (← add 64 kept new.toNat) % 65521
  let departed := (← mul 64 (s.count % 65521) old.toNat) % 65521
  let kept ← sub (← add 64 s.high.toNat 65521) departed
  let high := (← add 64 kept low) % 65521
  let low ← narrow 32 low
  let high ← narrow 32 high
  return ⟨UInt32.ofNat low, UInt32.ofNat high, s.count⟩

/-- The sums are those of the window, up to multiples of the modulus. -/
theorem sums_spec {length i low high : Nat} {bs : Bytes} (hi : i + bs.length = length)
    (hlen : length ≤ 2 ^ 40) (hlow : low ≤ 65520 + 255 * (i % 4096))
    (hhigh : high ≤ 65520 + (i % 4096) * (length * 255)) :
    ∃ low' high', sums length i low high bs = .ok (low', high') ∧
      low' % 65521 = (low + byteSum bs) % 65521 ∧ high' % 65521 = (high + weightedSum bs) % 65521 := by
  -- on what is left of the window: between two reductions each byte adds at most `length * 255`
  induction bs generalizing i low high with
  | nil => exact ⟨low, high, rfl, rfl, rfl⟩
  | cons b bs ih =>
    have hb := b.toNat_lt
    rw [List.length_cons] at hi
    have hweight : length - i = bs.length + 1 := by omega
    have hterm : (length - i) * b.toNat ≤ length * 255 :=
      Nat.mul_le_mul (Nat.sub_le _ _) (by omega)
    have hstep : (i % 4096 + 1) * (length * 255) = i % 4096 * (length * 255) + length * 255 :=
      Nat.succ_mul _ _
    have hmost : (i % 4096 + 1) * (length * 255) ≤ 4096 * (length * 255) :=
      Nat.mul_le_mul_right _ (by omega)
    have hl : low + b.toNat < 2 ^ 64 := by omega
    have hm : (length - i) * b.toNat < 2 ^ 64 := by omega
    have hh : high + (length - i) * b.toNat < 2 ^ 64 := by omega
    simp only [sums, add_of_lt hl, sub_of_le (show i ≤ length by omega), bind_ok, mul_of_lt hm,
      add_of_lt hh, byteSum, weightedSum, ← hweight]
    by_cases hr : i % 4096 = 4095
    · rw [if_pos hr]
      have hlow' : (low + b.toNat) % 65521 ≤ 65520 + 255 * ((i + 1) % 4096) := by omega
      have hhigh' : (high + (length - i) * b.toNat) % 65521 ≤
        65520 + ((i + 1) % 4096) * (length * 255) := by omega
      obtain ⟨low', high', heq, hlow', hhigh'⟩ := ih (by omega) hlow' hhigh'
      refine ⟨low', high', heq, ?_, ?_⟩
      · rw [hlow']
        omega
      · rw [hhigh']
        omega
    · rw [if_neg hr]
      have hnext : (i + 1) % 4096 = i % 4096 + 1 := by omega
      have hlow' : low + b.toNat ≤ 65520 + 255 * ((i + 1) % 4096) := by omega
      have hhigh' : high + (length - i) * b.toNat ≤ 65520 + ((i + 1) % 4096) * (length * 255) := by
        rw [hnext, hstep]
        omega
      obtain ⟨low', high', heq, hlow', hhigh'⟩ := ih (by omega) hlow' hhigh'
      refine ⟨low', high', heq, ?_, ?_⟩
      · rw [hlow', Nat.add_assoc]
      · rw [hhigh', Nat.add_assoc]

/-- **The checksum of a window, in words.** -/
theorem compute_eq {bs : Bytes} (h : bs.length ≤ 2 ^ 40) : compute bs = .ok (ofBytes bs) := by
  obtain ⟨low, high, heq, hlow, hhigh⟩ :=
    sums_spec (Nat.zero_add bs.length) h (Nat.zero_le _) (Nat.zero_le _)
  rw [Nat.zero_add] at hlow hhigh
  have hl : low % 65521 < 2 ^ 32 := by omega
  have hh : high % 65521 < 2 ^ 32 := by omega
  have hof : (⟨UInt32.ofNat (low % 65521), UInt32.ofNat (high % 65521), bs.length⟩ : RollingSum).Of bs :=
    ⟨by rw [UInt32.toNat_ofNat_of_lt' hl, hlow], by rw [UInt32.toNat_ofNat_of_lt' hh, hhigh], rfl⟩
  simp only [compute, heq, bind_ok, narrow_of_lt hl, narrow_of_lt hh, pure_eq]
  rw [hof.unique (of_ofBytes bs)]

/-- **Rolling in words gives the checksum of the window that has moved on.** -/
theorem slide_eq {s : RollingSum} {old : UInt8} {bs : Bytes} (h : s.Of (old :: bs)) (new : UInt8) :
    slide s old new = .ok (ofBytes (bs ++ [new])) := by
  have ho := old.toNat_lt
  have hn := new.toNat_lt
  have hlow := h.low
  have hhigh := h.high
  let low := (s.low.toNat + 65521 - old.toNat + new.toNat) % 65521
  let departed := s.count % 65521 * old.toNat % 65521
  let high := (s.high.toNat + 65521 - departed + low) % 65521
  have hproduct : s.count % 65521 * old.toNat ≤ 65520 * 255 := Nat.mul_le_mul (by omega) (by omega)
  have h₁ : s.low.toNat + 65521 < 2 ^ 64 := by omega
  have h₂ : old.toNat ≤ s.low.toNat + 65521 := by omega
  have h₃ : s.low.toNat + 65521 - old.toNat + new.toNat < 2 ^ 64 := by omega
  have h₄ : s.count % 65521 * old.toNat < 2 ^ 64 := by omega
  have h₅ : s.high.toNat + 65521 < 2 ^ 64 := by omega
  have h₆ : departed ≤ s.high.toNat + 65521 := by omega
  have h₇ : s.high.toNat + 65521 - departed + low < 2 ^ 64 := by omega
  have h₈ : low < 2 ^ 32 := by omega
  have h₉ : high < 2 ^ 32 := by omega
  have hslide : slide s old new = .ok ⟨UInt32.ofNat low, UInt32.ofNat high, s.count⟩ := by
    simp only [slide, add_of_lt h₁, bind_ok, sub_of_le h₂, add_of_lt h₃, mul_of_lt h₄, add_of_lt h₅]
    rw [sub_of_le h₆, bind_ok, add_of_lt h₇, bind_ok, narrow_of_lt h₈, bind_ok, narrow_of_lt h₉]
    rfl
  have hsum : byteSum (bs ++ [new]) = byteSum bs + new.toNat := by
    rw [byteSum_append]
    rfl
  have hl : low = byteSum (bs ++ [new]) % 65521 := by
    simp only [low, hlow, hsum, byteSum]
    omega
  have hd : departed = (bs.length + 1) * old.toNat % 65521 := by
    simp only [departed, h.count, List.length_cons, Nat.mod_mul_mod]
  have hh : high = weightedSum (bs ++ [new]) % 65521 := by
    simp only [high, hhigh, hl, hd, weightedSum_concat, weightedSum]
    omega
  have hof : (⟨UInt32.ofNat low, UInt32.ofNat high, s.count⟩ : RollingSum).Of (bs ++ [new]) :=
    ⟨by rw [UInt32.toNat_ofNat_of_lt' h₈, hl], by rw [UInt32.toNat_ofNat_of_lt' h₉, hh],
      by rw [List.length_append]; exact h.count⟩
  rw [hslide, hof.unique (of_ofBytes _)]

end RollingSum

end BlockSync
