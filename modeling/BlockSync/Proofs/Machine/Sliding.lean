import BlockSync.Proofs.Machine.Checksum
import Mathlib.Algebra.BigOperators.Fin

/-!
# The rolling checksum along a file

* `byteSum_eq_sum`, `weightedSum_eq_sum`: the components as sums over the positions of a window;
* `RollingSum.packed_eq_iff`: the packed words of two windows are equal just when both components are;
* `RollingSum.rollAlong`, `RollingSum.slideAlong`: the checksum of the first window follows the
  window along the bytes;
* **`RollingSum.slideAlong_exact`**: after any number of steps it is the checksum of the window there,
  without a trap, and the components are the sums of that window modulo 65521.
-/

namespace BlockSync

/-! ## The components as sums over positions -/

theorem byteSum_eq_sum (bs : Bytes) : byteSum bs = ∑ i : Fin bs.length, bs[i].toNat := by
  induction bs with
  | nil => rfl
  | cons b bs ih =>
    rw [byteSum, ih]
    exact (Fin.sum_univ_succ fun i : Fin (bs.length + 1) => ((b :: bs)[i]).toNat).symm

/-- Byte `i` of `n` counts `n - i` times. -/
theorem weightedSum_eq_sum (bs : Bytes) :
    weightedSum bs = ∑ i : Fin bs.length, (bs.length - i) * bs[i].toNat := by
  induction bs with
  | nil => rfl
  | cons b bs ih =>
    have hsplit := Fin.sum_univ_succ fun i : Fin (bs.length + 1) =>
      (bs.length + 1 - i) * ((b :: bs)[i]).toNat
    rw [weightedSum, ih]
    refine Eq.trans ?_ hsplit.symm
    congr 1
    refine Finset.sum_congr rfl fun i _ => ?_
    rw [Fin.val_succ, Nat.add_sub_add_right]
    rfl

namespace RollingSum

/-! ## Two windows -/

variable {s t : RollingSum}

theorem Of.low_lt {bs : Bytes} (h : s.Of bs) : s.low.toNat < 65521 := by
  rw [h.low]
  exact Nat.mod_lt _ (by decide)

theorem Of.high_lt {bs : Bytes} (h : s.Of bs) : s.high.toNat < 65521 := by
  rw [h.high]
  exact Nat.mod_lt _ (by decide)

/-- The high component stands above the low one. -/
theorem toNat_packed (hl : s.low.toNat < 2 ^ 16) (hh : s.high.toNat < 2 ^ 16) :
    s.packed.toNat = s.high.toNat * 2 ^ 16 + s.low.toNat := by
  have hshift : (s.high <<< 16).toNat = s.high.toNat <<< 16 := by
    rw [UInt32.toNat_shiftLeft, Nat.shiftLeft_eq]
    change s.high.toNat * 2 ^ 16 % 2 ^ 32 = _
    rw [Nat.shiftLeft_eq]
    omega
  rw [packed, UInt32.toNat_or, hshift, ← Nat.shiftLeft_add_eq_or_of_lt hl, Nat.shiftLeft_eq]

/-- **The words of two windows are equal just when both components are.** -/
theorem packed_eq_iff {bs cs : Bytes} (hs : s.Of bs) (ht : t.Of cs) :
    s.packed = t.packed ↔ s.low = t.low ∧ s.high = t.high := by
  have hsl := hs.low_lt
  have hsh := hs.high_lt
  have htl := ht.low_lt
  have hth := ht.high_lt
  rw [← UInt32.toNat_inj, ← UInt32.toNat_inj, ← UInt32.toNat_inj,
    toNat_packed (by omega) (by omega), toNat_packed (by omega) (by omega)]
  omega

/-! ## Along a file -/

/-- The window of `n` bytes at `k`. -/
def window (bs : Bytes) (n k : Nat) : Bytes := (bs.drop k).take n

/-- The bytes that depart and arrive in the first `k` steps of a window of `n` bytes. -/
def exchanged (bs : Bytes) (n k : Nat) : List (UInt8 × UInt8) := (bs.zip (bs.drop n)).take k

/-- The checksum of the first window of `n` bytes, rolled `k` times. -/
def rollAlong (bs : Bytes) (n k : Nat) : RollingSum :=
  (exchanged bs n k).foldl (fun s b => s.roll b.1 b.2) (ofBytes (bs.take n))

/-- The same in words. -/
def slideAlong (bs : Bytes) (n k : Nat) : Machine RollingSum := do
  let s ← compute (bs.take n)
  (exchanged bs n k).foldlM (fun s b => s.slide b.1 b.2) s

section Along

variable {bs : Bytes} {n k : Nat}

theorem length_window (h : k + n ≤ bs.length) : (window bs n k).length = n := by
  rw [window, List.length_take, List.length_drop]
  omega

/-- One more step exchanges the byte at the front of the window for the byte behind it. -/
theorem exchanged_succ (h : k + n < bs.length) :
    exchanged bs n (k + 1) = exchanged bs n k ++ [(bs[k], bs[k + n])] := by
  have hpair : (bs.zip (bs.drop n))[k]? = some (bs[k], bs[k + n]) := by
    rw [List.getElem?_zip_eq_some, List.getElem?_drop, Nat.add_comm n k]
    exact ⟨List.getElem?_eq_getElem (by omega), List.getElem?_eq_getElem h⟩
  rw [exchanged, List.take_add_one, hpair, Option.toList_some, exchanged]

/-- The window after a step lacks its first byte and has one more at its back. -/
theorem window_step (hn : 0 < n) (h : k + n < bs.length) :
    ∃ shared, window bs n k = bs[k] :: shared ∧ window bs n (k + 1) = shared ++ [bs[k + n]] := by
  obtain ⟨m, rfl⟩ := Nat.exists_eq_add_one_of_ne_zero hn.ne'
  refine ⟨(bs.drop (k + 1)).take m, ?_, ?_⟩
  · rw [window, List.drop_eq_getElem_cons (by omega), List.take_succ_cons]
  · rw [window, List.take_add_one, List.getElem?_drop, List.getElem?_eq_getElem (by omega),
      Option.toList_some]
    simp only [Nat.add_assoc, Nat.add_comm 1 m]

/-- Rolling from window to window gives the checksum of each. -/
theorem rollAlong_eq (hn : 0 < n) (hk : k + n ≤ bs.length) :
    rollAlong bs n k = ofBytes (window bs n k) := by
  -- on the number of steps: the last of them leaves the window before
  induction k with
  | zero => simp [rollAlong, exchanged, window]
  | succ k ih =>
    have hlt : k + n < bs.length := by omega
    obtain ⟨shared, hbefore, hafter⟩ := window_step hn hlt
    have hbefore' : rollAlong bs n k = ofBytes (bs[k] :: shared) := hbefore ▸ ih (by omega)
    rw [rollAlong, exchanged_succ hlt, List.foldl_append]
    change (rollAlong bs n k).roll _ _ = _
    rw [hbefore', hafter, roll_ofBytes]

/-- In words nothing traps along the bytes. -/
theorem slideAlong_eq (hn : 0 < n) (hle : n ≤ 2 ^ 40) (hk : k + n ≤ bs.length) :
    slideAlong bs n k = .ok (rollAlong bs n k) := by
  induction k with
  | zero =>
    have hlen : (bs.take n).length ≤ 2 ^ 40 := by
      rw [List.length_take]
      omega
    simp [slideAlong, exchanged, compute_eq hlen, rollAlong, Machine.bind_ok, Machine.pure_eq]
  | succ k ih =>
    have hlt : k + n < bs.length := by omega
    obtain ⟨shared, hbefore, hafter⟩ := window_step hn hlt
    have hof : (rollAlong bs n k).Of (bs[k] :: shared) := by
      rw [rollAlong_eq hn (by omega), hbefore]
      exact of_ofBytes _
    have hsplit : slideAlong bs n (k + 1) =
        (slideAlong bs n k >>= fun s => s.slide bs[k] bs[k + n]) := by
      simp only [slideAlong, exchanged_succ hlt, List.foldlM_append, List.foldlM_cons,
        List.foldlM_nil, bind_pure, bind_assoc]
    rw [hsplit, ih (by omega), Machine.bind_ok, slide_eq hof, rollAlong_eq hn hk, hafter]

/-- **The checksum follows the window.** After any number of steps it is the checksum of the window
there, as in words, where nothing traps; its components are the sums of the window modulo 65521, in
which byte `i` of `n` counts once and `n - i` times; and the words of two windows are equal just when
both components are. -/
theorem slideAlong_exact (hn : 0 < n) (hle : n ≤ 2 ^ 40) (hk : k + n ≤ bs.length) :
    ∃ s : RollingSum, slideAlong bs n k = .ok s ∧ rollAlong bs n k = s ∧
      compute (window bs n k) = .ok s ∧ ofBytes (window bs n k) = s ∧
      s.low.toNat =
        (∑ i : Fin (window bs n k).length, (window bs n k)[i].toNat) % 65521 ∧
      s.high.toNat =
        (∑ i : Fin (window bs n k).length, (n - i) * (window bs n k)[i].toNat) % 65521 ∧
      ∀ cs : Bytes, s.packed = (ofBytes cs).packed ↔
        s.low = (ofBytes cs).low ∧ s.high = (ofBytes cs).high := by
  have hroll : rollAlong bs n k = ofBytes (window bs n k) := rollAlong_eq hn hk
  have hof : (rollAlong bs n k).Of (window bs n k) := hroll ▸ of_ofBytes _
  have hlen : (window bs n k).length = n := length_window hk
  refine ⟨rollAlong bs n k, slideAlong_eq hn hle hk, rfl, ?_, hroll.symm, ?_, ?_, fun cs => ?_⟩
  · rw [compute_eq (hlen.trans_le hle), hroll]
  · rw [hof.low, byteSum_eq_sum]
  · rw [hof.high, weightedSum_eq_sum]
    simp only [hlen]
  · exact packed_eq_iff hof (of_ofBytes cs)

end Along

/-- Two steps of a window of three bytes, which is told apart from its bytes in another order. -/
theorem slideAlong_exact_three :
    (0 < 3 ∧ 3 ≤ 2 ^ 40 ∧ 2 + 3 ≤ ([7, 255, 0, 9, 200] : Bytes).length) ∧
      slideAlong [7, 255, 0, 9, 200] 3 2 = .ok ⟨209, 218, 3⟩ ∧
      rollAlong [7, 255, 0, 9, 200] 3 2 = ⟨209, 218, 3⟩ ∧
      compute [0, 9, 200] = .ok ⟨209, 218, 3⟩ ∧
      (⟨209, 218, 3⟩ : RollingSum).packed ≠ (ofBytes [200, 9, 0]).packed := by
  obtain ⟨s, hslide, hroll, hcompute, hof, -, -, hiff⟩ :=
    slideAlong_exact (show 0 < 3 by decide) (show 3 ≤ 2 ^ 40 by decide)
      (show 2 + 3 ≤ ([7, 255, 0, 9, 200] : Bytes).length by decide)
  have hs : s = ⟨209, 218, 3⟩ := hof.symm.trans (by decide)
  subst hs
  refine ⟨by decide, hslide, hroll, hcompute, fun heq => ?_⟩
  exact absurd ((hiff _).mp heq).2 (by decide)

end RollingSum

end BlockSync
