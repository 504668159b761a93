import BlockSync.Proofs.Endian
import BlockSync.Proofs.Signature.Params
import BlockSync.Signature.Basic

/-!
# The signature of a file

* `blocksOf_append`, `getElem?_blocksOf`: the blocks of a file, from its front and by position;
* `blockRecord`: the record of a block, in which its position does not show;
* `Signature.ofBytes_spec`: the signature of a file lists its blocks;
* `Signature.encode_ofBytes`, `Params.ofHeader_header`, `BlockSum.ofRecord_record`,
  `BlockSum.record_ofRecord`: what it is on the wire, and what is read there.
-/

namespace BlockSync

/-! ## Blocks -/

theorem blocksOf_append {n : Nat} {block : Bytes} (hn : 0 < n) (hl : block.length = n) (bs : Bytes) :
    blocksOf n (block ++ bs) = block :: blocksOf n bs := by
  cases block with
  | nil => simp only [List.length_nil] at hl; omega
  | cons b block =>
    have hl' : block.length = n - 1 := by simp only [List.length_cons] at hl; omega
    rw [List.cons_append, blocksOf, List.take_left' hl', List.drop_left' hl']

theorem blocksOf_of_le {n : Nat} {bs : Bytes} (hne : bs ≠ []) (hl : bs.length ≤ n) :
    blocksOf n bs = [bs] := by
  cases bs with
  | nil => exact absurd rfl hne
  | cons b bs =>
    have hl' : bs.length ≤ n - 1 := by simp only [List.length_cons] at hl; omega
    rw [blocksOf, List.take_of_length_le hl', List.drop_of_length_le hl', blocksOf]

/-- The block at a position is that part of the file, as far as the file goes. -/
theorem getElem?_blocksOf {n : Nat} (hn : 0 < n) {bs block : Bytes} {i : Nat}
    (h : (blocksOf n bs)[i]? = some block) :
    block = (bs.drop (i * n)).take n ∧ i * n + block.length ≤ bs.length := by
  induction i generalizing bs with
  | zero =>
    cases bs with
    | nil => rw [blocksOf] at h; cases h
    | cons b bs =>
      rw [blocksOf] at h
      obtain rfl : b :: bs.take (n - 1) = block := Option.some.inj h
      obtain ⟨m, rfl⟩ : ∃ m, n = m + 1 := ⟨n - 1, by omega⟩
      refine ⟨by simp, ?_⟩
      simp only [List.length_cons, List.length_take]
      omega
  | succ i ih =>
    cases bs with
    | nil => rw [blocksOf] at h; cases h
    | cons b bs =>
      rw [blocksOf, List.getElem?_cons_succ] at h
      obtain ⟨hblock, hle⟩ := ih h
      obtain ⟨m, rfl⟩ : ∃ m, n = m + 1 := ⟨n - 1, by omega⟩
      have hdrop : (b :: bs).drop ((i + 1) * (m + 1)) =
          (bs.drop (m + 1 - 1)).drop (i * (m + 1)) := by
        have hsucc : (i + 1) * (m + 1) = m + i * (m + 1) + 1 := by rw [Nat.succ_mul]; omega
        rw [hsucc, List.drop_succ_cons, List.drop_drop, Nat.add_sub_cancel]
      have hpos : 0 < (bs.drop (m + 1 - 1)).length := by
        refine Nat.pos_of_ne_zero fun h0 => ?_
        rw [List.eq_nil_of_length_eq_zero h0, blocksOf] at h
        cases h
      rw [hdrop]
      refine ⟨hblock, ?_⟩
      rw [List.length_drop] at hle hpos
      rw [Nat.succ_mul, List.length_cons]
      omega

theorem length_blocksOf_le (n : Nat) (bs : Bytes) : (blocksOf n bs).length ≤ bs.length := by
  fun_induction blocksOf n bs with
  | case1 => exact Nat.le_refl 0
  | case2 b bs ih =>
    rw [List.length_drop] at ih
    simp only [List.length_cons]
    omega

/-- There are as many blocks as are needed. -/
theorem length_blocksOf {n : Nat} (hn : 0 < n) (bs : Bytes) :
    (blocksOf n bs).length = (bs.length + n - 1) / n := by
  fun_induction blocksOf n bs with
  | case1 => exact (Nat.div_eq_of_lt (by simp only [List.length_nil]; omega)).symm
  | case2 b bs ih =>
    have hstep : (bs.length + 1 + n - 1) / n = bs.length / n + 1 := by
      rw [Nat.add_right_comm, Nat.add_sub_cancel, Nat.add_div_right _ hn]
    rw [List.length_cons, List.length_cons, ih, List.length_drop, hstep]
    rcases Nat.lt_or_ge bs.length (n - 1) with hl | hl
    · rw [Nat.div_eq_of_lt (by omega), Nat.div_eq_of_lt (by omega)]
    · congr 2
      omega

/-! ## Records -/

theorem Digest.length_initial (d : Digest) (n : Nat) : (d.initial n).length = min n digestLength := by
  rw [initial, List.length_take, d.length_bytes]

theorem Digest.bytes_ofInitial {known : Bytes} (h : known.length ≤ digestLength) :
    (ofInitial known).bytes = known ++ List.replicate (digestLength - known.length) 0 := by
  rw [ofInitial]
  simp only [List.take_of_length_le h]

/-- What is known of a digest stays. -/
theorem Digest.initial_ofInitial_self {known : Bytes} (h : known.length ≤ digestLength) :
    (ofInitial known).initial known.length = known := by
  rw [initial, bytes_ofInitial h, List.take_left' rfl]

/-- Behind what is known of a digest it is zero. -/
theorem Digest.drop_ofInitial {known : Bytes} (h : known.length ≤ digestLength) :
    (ofInitial known).bytes.drop known.length = List.replicate (digestLength - known.length) 0 := by
  rw [bytes_ofInitial h, List.drop_left' rfl]

/-- The part of a digest that is kept is all that is needed to know that part. -/
theorem Digest.initial_ofInitial (d : Digest) (n : Nat) :
    (ofInitial (d.initial n)).initial n = d.initial n := by
  have hl := d.length_initial n
  rw [initial, bytes_ofInitial (by omega)]
  rcases Nat.le_total n digestLength with h | h
  · exact List.take_left' (by omega)
  · have hfull : digestLength - (d.initial n).length = 0 := by omega
    rw [hfull, List.replicate_zero, List.append_nil]
    exact List.take_of_length_le (by omega)

/-- A digest that is zero behind the part that is kept can be made from that part. -/
theorem Digest.ofInitial_initial {d : Digest} {n : Nat} (h : ∀ x ∈ d.bytes.drop n, x = 0) :
    ofInitial (d.initial n) = d := by
  have hl := d.length_initial n
  have hzeros : d.bytes.drop n = List.replicate (digestLength - (d.initial n).length) 0 := by
    apply List.eq_replicate_iff.mpr ⟨?_, h⟩
    rw [List.length_drop, d.length_bytes]
    omega
  have hbytes : (ofInitial (d.initial n)).bytes = d.bytes := by
    rw [bytes_ofInitial (by omega), ← hzeros, initial, List.take_append_drop]
  obtain ⟨bytes, hd⟩ := d
  rw [Digest.mk.injEq]
  exact hbytes

/-- The record of a block. -/
def blockRecord (p : Params) (block : Bytes) : Bytes :=
  BigEndian.encode 4 (RollingSum.ofBytes block).packed.toNat ++
    (Blake3.hash block).initial p.strongLength.toNat

theorem BlockSum.record_ofBytes (p : Params) (i : UInt32) (block : Bytes) :
    (ofBytes i block p.strongLength).record p.strongLength = blockRecord p block := by
  rw [record, ofBytes, blockRecord]
  simp only [Digest.initial_ofInitial]

theorem length_blockRecord {p : Params} (hp : p.Valid) (block : Bytes) :
    (blockRecord p block).length = p.recordLength := by
  have hle := hp.strongLength_le
  rw [blockRecord, List.length_append, BigEndian.length_encode, Digest.length_initial,
    Params.recordLength, digestLength]
  omega

theorem length_flatMap_blockRecord {p : Params} (hp : p.Valid) (blocks : List Bytes) :
    (blocks.flatMap (blockRecord p)).length = blocks.length * p.recordLength := by
  rw [List.length_flatMap, List.map_congr_left fun block _ => length_blockRecord hp block]
  simp

/-- A record tells of a block all but its position and the part of the digest that is not kept. -/
theorem BlockSum.ofRecord_record (b : BlockSum) (i strongLength : UInt32) :
    ofRecord i (b.record strongLength) =
      ⟨i, b.weak, .ofInitial (b.strong.initial strongLength.toNat)⟩ := by
  have hw : (BigEndian.encode 4 b.weak.toNat).length = 4 := BigEndian.length_encode ..
  rw [ofRecord, record, List.take_left' hw, List.drop_left' hw, BigEndian.decode_word]

theorem BlockSum.ofRecord_blockRecord (p : Params) (i : UInt32) (block : Bytes) :
    ofRecord i (blockRecord p block) = ofBytes i block p.strongLength := by
  rw [← record_ofBytes p i, ofRecord_record, ofBytes]
  simp only [Digest.initial_ofInitial]

/-- A byte string of the length of a record is the record of the block in it. -/
theorem BlockSum.record_ofRecord {p : Params} (hp : p.Valid) (i : UInt32) {bs : Bytes}
    (h : bs.length = p.recordLength) : (ofRecord i bs).record p.strongLength = bs := by
  have hle := hp.strongLength_le
  rw [Params.recordLength] at h
  have hweak : (bs.take 4).length = 4 := by
    rw [List.length_take]
    omega
  have hstrong : (bs.drop 4).length = p.strongLength.toNat := by
    rw [List.length_drop]
    omega
  have hknown := Digest.initial_ofInitial_self (hstrong.trans_le hle)
  rw [hstrong] at hknown
  rw [record, ofRecord, BigEndian.encode_word hweak, hknown, List.take_append_drop]

/-! ## Headers -/

namespace Params

theorem length_header (p : Params) : p.header.length = signatureHeaderLength := by
  simp [header, signatureMark, signatureHeaderLength]

theorem ofHeader_header {p : Params} (hp : p.Valid) : ofHeader p.header = .ok p := by
  have hm : signatureMark.length = 4 := rfl
  have hb : (BigEndian.encode 4 p.blockLength.toNat).length = 4 := by simp
  have hs : (BigEndian.encode 4 p.strongLength.toNat).length = 4 := by simp
  have hmark : p.header.take 4 = signatureMark := by
    rw [header, List.append_assoc, List.take_left' hm]
  have hblock : (p.header.drop 4).take 4 = BigEndian.encode 4 p.blockLength.toNat := by
    rw [header, List.append_assoc, List.drop_left' hm, List.take_left' hb]
  have hstrong : (p.header.drop 8).take 4 = BigEndian.encode 4 p.strongLength.toNat := by
    rw [header, List.drop_left' (by simp [hm]), List.take_of_length_le (Nat.le_of_eq hs)]
  simp only [ofHeader, hmark, if_true, hblock, hstrong, BigEndian.decode_word]
  exact (checked_iff ..).mpr ⟨rfl, hp⟩

end Params

/-! ## Signatures -/

namespace Signature

theorem ofBytes_spec {p : Params} (hp : p.Valid) (bs : Bytes) :
    ∃ s, ofBytes p bs = .ok s ∧ s.params = p ∧
      s.blocks.toList = (blocksOf p.blockLength.toNat bs).mapIdx fun i block =>
        .ofBytes (UInt32.ofNat i) block p.strongLength := by
  have hne : p.blockLength ≠ 0 := fun h0 => by
    have := hp.le_blockLength
    rw [h0] at this
    exact absurd this (by decide)
  exact ⟨_, if_neg hne, rfl, rfl⟩

/-- On the wire the signature of a file is its header and the records of its blocks. -/
theorem encode_ofBytes {p : Params} {bs : Bytes} {s : Signature} (h : ofBytes p bs = .ok s) :
    s.encode = p.header ++ (blocksOf p.blockLength.toNat bs).flatMap (blockRecord p) := by
  unfold ofBytes at h
  split at h
  · cases h
  · obtain rfl := Except.ok.inj h
    have hfst : ∀ blocks : List Bytes, blocks.zipIdx.flatMap (fun b => blockRecord p b.1) =
        blocks.flatMap (blockRecord p) := fun blocks => by
      rw [← List.flatMap_map, List.zipIdx_map_fst]
    rw [encode]
    simp only [List.mapIdx_eq_zipIdx_map, List.flatMap_map, BlockSum.record_ofBytes]
    rw [hfst]

/-- The length of a signature on the wire. -/
theorem length_encode_ofBytes {p : Params} (hp : p.Valid) {bs : Bytes} {s : Signature}
    (h : ofBytes p bs = .ok s) :
    s.encode.length = signatureHeaderLength +
      (bs.length + p.blockLength.toNat - 1) / p.blockLength.toNat * p.recordLength := by
  have hpos : 0 < p.blockLength.toNat := Nat.lt_of_lt_of_le (by decide) hp.le_blockLength
  rw [encode_ofBytes h, List.length_append, Params.length_header, length_flatMap_blockRecord hp,
    length_blocksOf hpos]

end Signature

end BlockSync
