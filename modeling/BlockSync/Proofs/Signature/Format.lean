import BlockSync.Proofs.Signature.Blocks

/-!
# The format of signature streams

* `Signature.IsStream`: the mark, two lengths in their ranges, and whole records;
* `Signature.refusal`: what is wrong with any other byte string;
* `Signature.Canonical`: nothing is in a signature that its stream does not show;
  `Signature.canonical_ofBytes`: so it is with that of a file;
* **`Signature.encode_ofRecords`**, **`Signature.isStream_encode`**: the blocks in the records of a
  stream are written as that stream, and a canonical signature is written as a stream whose records
  hold its blocks;
* `Signature.stream_cases`: a byte string is a stream or falls short of one in one of three ways.
-/

namespace BlockSync

namespace Signature

variable {p : Params} {records : List Bytes} {bs : Bytes} {s : Signature}

/-- A signature stream: the mark, two lengths in their ranges, and whole records. -/
structure IsStream (p : Params) (records : List Bytes) (bs : Bytes) : Prop where
  valid : p.Valid
  length_record : ∀ r ∈ records, r.length = 4 + p.strongLength.toNat
  eq : bs = signatureMark ++ BigEndian.encode 4 p.blockLength.toNat ++
    BigEndian.encode 4 p.strongLength.toNat ++ records.flatten

/-- What is wrong with a byte string that is not a signature stream. -/
def refusal (bs : Bytes) : TransferError :=
  let mark := bs.take 4
  let blockLength := UInt32.ofNat (BigEndian.decode ((bs.drop 4).take 4))
  let strongLength := UInt32.ofNat (BigEndian.decode ((bs.drop 8).take 4))
  if bs.length < 12 then .invalidSignature .endedInHeader
  else if mark ≠ signatureMark then .invalidSignature (.wrongMark mark)
  else if blockLength.toNat < 64 ∨ 65536 < blockLength.toNat then .blockLength blockLength
  else if strongLength.toNat < 4 ∨ 32 < strongLength.toNat then .strongLength strongLength
  else .invalidSignature .endedInRecord

/-- The signature whose blocks are in the given records. -/
def ofRecords (p : Params) (records : List Bytes) : Signature :=
  ⟨p, (records.mapIdx fun i r => .ofRecord (UInt32.ofNat i) r).toArray⟩

/-- Nothing is in a signature that its stream does not show: the lengths are in their ranges, the blocks
are numbered by position, and the part of a digest that is not kept is zero. -/
structure Canonical (s : Signature) : Prop where
  valid : s.params.Valid
  index : ∀ i, (h : i < s.blocks.size) → s.blocks[i].index = UInt32.ofNat i
  strong : ∀ b ∈ s.blocks, ∀ x ∈ b.strong.bytes.drop s.params.strongLength.toNat, x = 0

/-! ## Headers -/

theorem ofHeader_take (bs : Bytes) :
    Params.ofHeader (bs.take signatureHeaderLength) = Params.ofHeader bs := by
  simp only [Params.ofHeader, signatureHeaderLength, List.take_take, List.drop_take]
  rfl

/-- A header that is read is the header of what is read. -/
theorem header_of_ofHeader {head : Bytes} (hl : head.length = signatureHeaderLength)
    (h : Params.ofHeader head = .ok p) : head = p.header ∧ p.Valid := by
  change head.length = 12 at hl
  unfold Params.ofHeader at h
  dsimp only at h
  split at h
  · next hmark =>
    obtain ⟨rfl, hv⟩ := (Params.checked_iff ..).mp h
    refine ⟨?_, hv⟩
    have hblock : ((head.drop 4).take 4).length = 4 := by
      rw [List.length_take, List.length_drop]
      omega
    have hstrong : ((head.drop 8).take 4).length = 4 := by
      rw [List.length_take, List.length_drop]
      omega
    have hend : (head.drop 8).take 4 = (head.drop 4).drop 4 := by
      rw [List.drop_drop, List.take_of_length_le (by rw [List.length_drop]; omega)]
    rw [Params.header, BigEndian.encode_word hblock, BigEndian.encode_word hstrong, ← hmark, hend,
      List.append_assoc, List.take_append_drop, List.take_append_drop]
  · cases h

theorem refusal_of_short (h : bs.length < signatureHeaderLength) :
    refusal bs = .invalidSignature .endedInHeader := if_pos h

/-- Of a stream with a whole header it is the header that tells what is wrong, or the records are. -/
theorem refusal_of_header (h : signatureHeaderLength ≤ bs.length) :
    refusal bs = match Params.ofHeader bs with
      | .error e => e
      | .ok _ => .invalidSignature .endedInRecord := by
  have hwhole : ¬ bs.length < 12 := Nat.not_lt_of_le h
  simp only [refusal, if_neg hwhole, ne_eq, ite_not, Params.ofHeader, Params.checked_eq]
  by_cases hmark : bs.take 4 = signatureMark
  · rw [if_pos hmark, if_pos hmark]
    split
    · rfl
    · split <;> rfl
  · rw [if_neg hmark, if_neg hmark]

/-! ## Records -/

theorem isStream_iff :
    IsStream p records bs ↔ p.Valid ∧ (∀ r ∈ records, r.length = p.recordLength) ∧
      bs = p.header ++ records.flatten :=
  ⟨fun h => ⟨h.valid, h.length_record, h.eq⟩, fun ⟨hv, hl, he⟩ => ⟨hv, hl, he⟩⟩

theorem encode_eq (s : Signature) :
    s.encode = s.params.header ++ (s.blocks.toList.map (·.record s.params.strongLength)).flatten := by
  rw [encode, List.flatMap_def]

theorem map_record_ofRecords (hp : p.Valid) (h : ∀ r ∈ records, r.length = p.recordLength) :
    (ofRecords p records).blocks.toList.map (·.record p.strongLength) = records := by
  refine List.ext_getElem (by simp [ofRecords]) fun i hi hr => ?_
  simp only [ofRecords, List.getElem_map, List.getElem_mapIdx]
  exact BlockSum.record_ofRecord hp _ (h _ (List.getElem_mem hr))

/-- **The signature in the records of a stream is written as that stream.** -/
theorem encode_ofRecords (h : IsStream p records bs) : (ofRecords p records).encode = bs := by
  obtain ⟨hv, hl, rfl⟩ := isStream_iff.mp h
  rw [encode_eq]
  exact congrArg (p.header ++ List.flatten ·) (map_record_ofRecords hv hl)

theorem canonical_ofRecords (h : IsStream p records bs) : (ofRecords p records).Canonical where
  valid := h.valid
  index i hi := by simp [ofRecords, BlockSum.ofRecord]
  strong b hb x hx := by
    obtain ⟨i, hi, rfl⟩ := Array.mem_iff_getElem.mp hb
    have hi' : i < records.length := by simpa [ofRecords] using hi
    have hknown : (records[i].drop 4).length = p.strongLength.toNat := by
      rw [List.length_drop, h.length_record _ (List.getElem_mem hi'), Nat.add_sub_cancel_left]
    have hle : (records[i].drop 4).length ≤ digestLength := by
      rw [hknown]
      exact h.valid.strongLength_le
    have hzeros := Digest.drop_ofInitial hle
    rw [hknown] at hzeros
    have hx' : x ∈ (Digest.ofInitial (records[i].drop 4)).bytes.drop p.strongLength.toNat := by
      simpa [ofRecords, BlockSum.ofRecord] using hx
    rw [hzeros] at hx'
    exact List.eq_of_mem_replicate hx'

/-- **A canonical signature is written as a stream, one record for each block.** -/
theorem isStream_encode (h : s.Canonical) :
    IsStream s.params (s.blocks.toList.map (·.record s.params.strongLength)) s.encode := by
  refine isStream_iff.mpr ⟨h.valid, ?_, encode_eq s⟩
  intro r hr
  obtain ⟨b, -, rfl⟩ := List.mem_map.mp hr
  have hle := h.valid.strongLength_le
  rw [BlockSum.record, List.length_append, BigEndian.length_encode, Digest.length_initial,
    Params.recordLength, digestLength, Nat.min_eq_left hle]

/-- **The records of a canonical signature hold its blocks.** -/
theorem ofRecords_records (h : s.Canonical) :
    ofRecords s.params (s.blocks.toList.map (·.record s.params.strongLength)) = s := by
  obtain ⟨p, blocks⟩ := s
  rw [ofRecords, Signature.mk.injEq]
  refine ⟨rfl, ?_⟩
  apply Array.ext
  · simp
  · intro i _ hi
    have hindex : blocks[i].index = UInt32.ofNat i := h.index i hi
    have hstrong := Digest.ofInitial_initial (h.strong blocks[i] (Array.getElem_mem hi))
    simp only [List.getElem_toArray, List.getElem_mapIdx, List.getElem_map, Array.getElem_toList,
      BlockSum.ofRecord_record, hstrong, ← hindex]

/-- The signature of a file is written as the records of its blocks. -/
theorem isStream_ofBytes (hp : p.Valid) {file : Bytes} (h : ofBytes p file = .ok s) :
    IsStream p ((blocksOf p.blockLength.toNat file).map (blockRecord p)) s.encode := by
  refine isStream_iff.mpr ⟨hp, ?_, ?_⟩
  · intro r hr
    obtain ⟨block, -, rfl⟩ := List.mem_map.mp hr
    exact length_blockRecord hp block
  · rw [encode_ofBytes h, List.flatMap_def]

theorem ofRecords_blockRecord (hp : p.Valid) {file : Bytes} (h : ofBytes p file = .ok s) :
    ofRecords p ((blocksOf p.blockLength.toNat file).map (blockRecord p)) = s := by
  obtain ⟨s', hs', hparams, hblocks⟩ := ofBytes_spec hp file
  obtain rfl : s = s' := Except.ok.inj (h.symm.trans hs')
  obtain ⟨params, blocks⟩ := s
  rw [ofRecords, Signature.mk.injEq]
  refine ⟨hparams.symm, ?_⟩
  apply Array.toList_inj.mp
  simp only [List.mapIdx_eq_zipIdx_map, List.zipIdx_map, List.map_map, Function.comp_def] at hblocks ⊢
  simp only [Prod.map, BlockSum.ofRecord_blockRecord]
  exact hblocks.symm

/-- **The signature of a file is canonical.** -/
theorem canonical_ofBytes (hp : p.Valid) {file : Bytes} (h : ofBytes p file = .ok s) :
    s.Canonical :=
  ofRecords_blockRecord hp h ▸ canonical_ofRecords (isStream_ofBytes hp h)

/-! ## What is not a stream -/

/-- A byte string is cut into whole records and what is left behind them. -/
theorem exists_records {n : Nat} (hn : 0 < n) (bs : Bytes) :
    ∃ (records : List Bytes) (tail : Bytes), (∀ r ∈ records, r.length = n) ∧ tail.length < n ∧
      bs = records.flatten ++ tail := by
  fun_induction blocksOf n bs with
  | case1 => exact ⟨[], [], List.forall_mem_nil _, hn, rfl⟩
  | case2 b bs ih =>
    rcases Nat.lt_or_ge (b :: bs).length n with hl | hl
    · exact ⟨[], b :: bs, List.forall_mem_nil _, hl, rfl⟩
    · obtain ⟨records, tail, hrecords, htail, hbs⟩ := ih
      rw [List.length_cons] at hl
      refine ⟨(b :: bs.take (n - 1)) :: records, tail, ?_, htail, ?_⟩
      · rw [List.forall_mem_cons]
        refine ⟨?_, hrecords⟩
        rw [List.length_cons, List.length_take]
        omega
      · rw [List.flatten_cons, List.append_assoc, ← hbs, List.cons_append, List.take_append_drop]

/-- A byte string is too short for a header, or its header is refused, or it consists of a header, whole
records and the beginning of another one. -/
theorem stream_cases (bs : Bytes) :
    bs.length < signatureHeaderLength ∨
      (signatureHeaderLength ≤ bs.length ∧ ∃ e, Params.ofHeader bs = .error e) ∨
      ∃ (p : Params) (records : List Bytes) (tail : Bytes), p.Valid ∧
        (∀ r ∈ records, r.length = p.recordLength) ∧ tail.length < p.recordLength ∧
        bs = p.header ++ (records.flatten ++ tail) := by
  rcases Nat.lt_or_ge bs.length signatureHeaderLength with hl | hl
  · exact .inl hl
  · cases hp : Params.ofHeader bs with
    | error e => exact .inr (.inl ⟨hl, e, rfl⟩)
    | ok p =>
      rw [← ofHeader_take] at hp
      obtain ⟨hhead, hv⟩ := header_of_ofHeader (List.length_take_of_le hl) hp
      obtain ⟨records, tail, hrecords, htail, hrest⟩ :=
        exists_records (n := p.recordLength) (by rw [Params.recordLength]; omega)
          (bs.drop signatureHeaderLength)
      refine .inr (.inr ⟨p, records, tail, hv, hrecords, htail, ?_⟩)
      rw [← hrest, ← hhead, List.take_append_drop]

end Signature

end BlockSync
