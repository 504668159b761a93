import BlockSync.Blake3.Hasher
import BlockSync.Delta.Instruction
import BlockSync.Proofs.Endian

/-!
# Reading a whole delta

The meaning of a delta that is at hand, as a file built from a basis. It is what a patcher has to put
out, however it gets to see the delta.

* `Instruction.bytes`, `rebuild`: what instructions build from a basis;
* `Reading`, `readDelta`: what a byte string, taken for a delta, puts out before it is closed or
  refused;
* `IsDelta`: the byte strings that are deltas of a file against a basis;
* **`readDelta_closed_iff`**: those are exactly the byte strings that are read to their end.
-/

namespace BlockSync

/-! ## What instructions build -/

namespace Instruction

/-- What an instruction adds to the new file. -/
def bytes (basis : Bytes) : Instruction → Bytes
  | copy offset length => (basis.drop offset.toNat).take length.toNat
  | insert bs => bs
  | close _ => []

/-- Instructions of which the length can be written. -/
def Sized : Instruction → Prop
  | copy _ _ => True
  | insert bs => bs.length < UInt32.size
  | close _ => False

/-- A copy lies within a basis of `size` bytes. -/
def Within (size : Nat) : Instruction → Prop
  | copy offset length => offset.toNat + length.toNat ≤ size
  | _ => True

end Instruction

/-- What instructions build from a basis. -/
def rebuild (basis : Bytes) (is : List Instruction) : Bytes := is.flatMap (·.bytes basis)

@[simp] theorem rebuild_nil (basis : Bytes) : rebuild basis [] = [] := rfl

@[simp] theorem rebuild_cons (basis : Bytes) (i : Instruction) (is : List Instruction) :
    rebuild basis (i :: is) = i.bytes basis ++ rebuild basis is := rfl

/-- The byte string is the delta of a file against a basis: the mark, instructions that build the file,
the closing, and nothing else. -/
def IsDelta (basis : Bytes) (verify : Bool) (delta file : Bytes) : Prop :=
  ∃ (is : List Instruction) (checksum : Digest),
    (∀ i ∈ is, i.Sized ∧ i.Within basis.length) ∧
    delta = deltaMark ++ is.flatMap Instruction.encode ++ (Instruction.close checksum).encode ∧
    file = rebuild basis is ∧ (verify = true → checksum = Blake3.hash file)

/-! ## Reading -/

/-- How reading a delta ends. -/
inductive Ending where
  /-- The delta is closed with a digest that has to be compared. -/
  | closed (checksum : Digest) (trailing : Bytes)
  /-- The digest has been compared. -/
  | compared (trailing : Bytes)
  | refused (cause : TransferError)

/-- What reading a delta comes to. -/
structure Reading where
  /-- The part of the new file that is built. -/
  output : Bytes
  ending : Ending

namespace Reading

/-- What was built before. -/
def after (r : Reading) (bs : Bytes) : Reading := { r with output := bs ++ r.output }

/-- Nothing more is built, and the delta is refused. -/
def refused (cause : TransferError) : Reading := ⟨[], .refused cause⟩

/-- The byte string ends before the delta is closed. -/
def early : Reading := refused (.corruptedDelta .endedEarly)

@[simp] theorem after_nil (r : Reading) : r.after [] = r := rfl

theorem after_after (r : Reading) (bs cs : Bytes) : (r.after cs).after bs = r.after (bs ++ cs) := by
  simp [after]

end Reading

/-- Read instructions up to the one that closes the delta. -/
def readInstructions (basis : Bytes) : Bytes → Reading
  | [] => .early
  | code :: bs =>
    if code = copyOpcode then
      let offset := BigEndian.decode (bs.take 8)
      let length := BigEndian.decode ((bs.take 12).drop 8)
      if bs.length < 12 then .early
      else if offset + length ≤ basis.length then
        (readInstructions basis (bs.drop 12)).after ((basis.drop offset).take length)
      else .refused (.copyOutOfBounds offset length basis.length)
    else if code = insertOpcode then
      let length := BigEndian.decode (bs.take 4)
      if bs.length < 4 then .early
      else if bs.length < 4 + length then Reading.early.after (bs.drop 4)
      else (readInstructions basis (bs.drop (4 + length))).after ((bs.drop 4).take length)
    else if code = closeOpcode then
      if bs.length < digestLength then .early
      else ⟨[], .closed (.ofInitial (bs.take digestLength)) (bs.drop digestLength)⟩
    else .refused (.corruptedDelta (.unknownOpcode code))
termination_by bs => bs.length
decreasing_by all_goals simp only [List.length_drop, List.length_cons]; omega

/-- Read a whole delta. -/
def readDelta (basis bs : Bytes) : Reading :=
  if bs.length < deltaMark.length then .early
  else if bs.take deltaMark.length = deltaMark then
    readInstructions basis (bs.drop deltaMark.length)
  else .refused (.corruptedDelta (.wrongMark (bs.take deltaMark.length)))

/-! ## Instruction by instruction -/

/-- What follows the opcode of a copy. -/
def readCopy (basis bs : Bytes) : Reading :=
  let offset := BigEndian.decode (bs.take 8)
  let length := BigEndian.decode ((bs.take 12).drop 8)
  if bs.length < 12 then .early
  else if offset + length ≤ basis.length then
    (readInstructions basis (bs.drop 12)).after ((basis.drop offset).take length)
  else .refused (.copyOutOfBounds offset length basis.length)

/-- What follows the length of an insertion. -/
def readInserted (basis : Bytes) (length : Nat) (bs : Bytes) : Reading :=
  if bs.length < length then Reading.early.after bs
  else (readInstructions basis (bs.drop length)).after (bs.take length)

/-- What follows the opcode of an insertion. -/
def readInsertion (basis bs : Bytes) : Reading :=
  if bs.length < 4 then .early
  else readInserted basis (BigEndian.decode (bs.take 4)) (bs.drop 4)

/-- What follows the opcode of closing. -/
def readClosing (bs : Bytes) : Reading :=
  if bs.length < digestLength then .early
  else ⟨[], .closed (.ofInitial (bs.take digestLength)) (bs.drop digestLength)⟩

theorem readInstructions_cons (basis : Bytes) (code : UInt8) (bs : Bytes) :
    readInstructions basis (code :: bs) =
      if code = copyOpcode then readCopy basis bs
      else if code = insertOpcode then readInsertion basis bs
      else if code = closeOpcode then readClosing bs
      else .refused (.corruptedDelta (.unknownOpcode code)) := by
  rw [readInstructions]
  simp only [readCopy, readInsertion, readInserted, readClosing, List.length_drop, List.drop_drop]
  congr 2
  by_cases h : bs.length < 4
  · rw [if_pos h, if_pos h]
  · rw [if_neg h, if_neg h]
    by_cases hl : bs.length < 4 + BigEndian.decode (bs.take 4)
    · rw [if_pos hl, if_pos (by omega)]
    · rw [if_neg hl, if_neg (by omega)]

theorem readInstructions_copy (basis bs : Bytes) :
    readInstructions basis (copyOpcode :: bs) = readCopy basis bs := by
  rw [readInstructions_cons, if_pos rfl]

theorem readInstructions_insert (basis bs : Bytes) :
    readInstructions basis (insertOpcode :: bs) = readInsertion basis bs := by
  rw [readInstructions_cons, if_neg (by decide), if_pos rfl]

theorem readInstructions_close (basis bs : Bytes) :
    readInstructions basis (closeOpcode :: bs) = readClosing bs := by
  rw [readInstructions_cons, if_neg (by decide), if_neg (by decide), if_pos rfl]

/-! ## Fields -/

section Fields

variable {bs : Bytes}

theorem readDelta_field (basis : Bytes) (h : bs.length = deltaMark.length) (rest : Bytes) :
    readDelta basis (bs ++ rest) =
      if bs = deltaMark then readInstructions basis rest
      else .refused (.corruptedDelta (.wrongMark bs)) := by
  rw [readDelta, if_neg (by rw [List.length_append]; omega), List.take_left' h, List.drop_left' h]

theorem readCopy_field (basis : Bytes) (h : bs.length = 12) (rest : Bytes) :
    readCopy basis (bs ++ rest) =
      let offset := BigEndian.decode (bs.take 8)
      let length := BigEndian.decode (bs.drop 8)
      if offset + length ≤ basis.length then
        (readInstructions basis rest).after ((basis.drop offset).take length)
      else .refused (.copyOutOfBounds offset length basis.length) := by
  have h8 : (bs ++ rest).take 8 = bs.take 8 := List.take_append_of_le_length (by omega)
  rw [readCopy, if_neg (by rw [List.length_append]; omega), List.take_left' h, List.drop_left' h, h8]

theorem readInsertion_field (basis : Bytes) (h : bs.length = 4) (rest : Bytes) :
    readInsertion basis (bs ++ rest) = readInserted basis (BigEndian.decode bs) rest := by
  rw [readInsertion, if_neg (by rw [List.length_append]; omega), List.take_left' h,
    List.drop_left' h]

theorem readClosing_field (h : bs.length = digestLength) (rest : Bytes) :
    readClosing (bs ++ rest) = ⟨[], .closed (.ofInitial bs) rest⟩ := by
  rw [readClosing, if_neg (by rw [List.length_append]; omega), List.take_left' h,
    List.drop_left' h]

theorem readInserted_zero (basis rest : Bytes) :
    readInserted basis 0 rest = readInstructions basis rest := by
  rw [readInserted, if_neg (by omega)]
  rfl

/-- The front of what is inserted arrives. -/
theorem readInserted_append (basis : Bytes) {length : Nat} (h : bs.length ≤ length) (rest : Bytes) :
    readInserted basis length (bs ++ rest) =
      (readInserted basis (length - bs.length) rest).after bs := by
  unfold readInserted
  rw [List.length_append]
  by_cases hr : rest.length < length - bs.length
  · rw [if_pos hr, if_pos (by omega), Reading.after_after]
  · rw [if_neg hr, if_neg (by omega), Reading.after_after, List.drop_append, List.take_append,
      List.drop_of_length_le h, List.take_of_length_le h, List.nil_append]

end Fields

/-! ## What is written is read -/

theorem Digest.ofInitial_bytes (d : Digest) : Digest.ofInitial d.bytes = d := by
  obtain ⟨bs, h⟩ := d
  simp [ofInitial, List.take_of_length_le (Nat.le_of_eq h), h]

theorem readClosing_encode (checksum : Digest) (trailing : Bytes) :
    readClosing (checksum.bytes ++ trailing) = ⟨[], .closed checksum trailing⟩ := by
  have hl := checksum.length_bytes
  rw [readClosing_field hl, Digest.ofInitial_bytes]

theorem readCopy_encode (basis : Bytes) (offset : UInt64) (length : UInt32) (rest : Bytes) :
    readCopy basis (BigEndian.encode 8 offset.toNat ++ BigEndian.encode 4 length.toNat ++ rest) =
      if offset.toNat + length.toNat ≤ basis.length then
        (readInstructions basis rest).after ((basis.drop offset.toNat).take length.toNat)
      else .refused (.copyOutOfBounds offset.toNat length.toNat basis.length) := by
  have ho : BigEndian.decode (BigEndian.encode 8 offset.toNat) = offset.toNat := by
    rw [BigEndian.decode_encode]
    exact Nat.mod_eq_of_lt offset.toNat_lt
  have hl : BigEndian.decode (BigEndian.encode 4 length.toNat) = length.toNat := by
    rw [BigEndian.decode_encode]
    exact Nat.mod_eq_of_lt length.toNat_lt
  have h12 : (BigEndian.encode 8 offset.toNat ++ BigEndian.encode 4 length.toNat).length = 12 := by
    simp
  have h8 : (BigEndian.encode 8 offset.toNat).length = 8 := by simp
  rw [readCopy_field basis h12, List.take_left' h8, List.drop_left' h8, ho, hl]

theorem readInsertion_encode (basis bs : Bytes) (h : bs.length < UInt32.size) (rest : Bytes) :
    readInsertion basis (BigEndian.encode 4 bs.length ++ bs ++ rest) =
      (readInstructions basis rest).after bs := by
  have hl : BigEndian.decode (BigEndian.encode 4 bs.length) = bs.length := by
    rw [BigEndian.decode_encode]
    exact Nat.mod_eq_of_lt h
  have h4 : (BigEndian.encode 4 bs.length).length = 4 := by simp
  rw [List.append_assoc, readInsertion_field basis h4, hl,
    readInserted_append basis (Nat.le_refl _), Nat.sub_self, readInserted_zero]

/-- An instruction is read at the front of others. -/
theorem readInstructions_encode {basis : Bytes} {i : Instruction} (hs : i.Sized)
    (hw : i.Within basis.length) (rest : Bytes) :
    readInstructions basis (i.encode ++ rest) =
      (readInstructions basis rest).after (i.bytes basis) := by
  cases i with
  | copy offset length =>
    rw [Instruction.encode, List.cons_append, List.cons_append, readInstructions_copy,
      readCopy_encode, if_pos (show offset.toNat + length.toNat ≤ basis.length from hw)]
    rfl
  | insert bs =>
    rw [Instruction.encode, List.cons_append, List.cons_append, readInstructions_insert,
      readInsertion_encode basis bs hs]
    rfl
  | close => exact hs.elim

theorem readInstructions_flatMap_encode {basis : Bytes} {is : List Instruction}
    (h : ∀ i ∈ is, i.Sized ∧ i.Within basis.length) (rest : Bytes) :
    readInstructions basis (is.flatMap Instruction.encode ++ rest) =
      (readInstructions basis rest).after (rebuild basis is) := by
  induction is with
  | nil => rfl
  | cons i is ih =>
    obtain ⟨hs, hw⟩ := h i (List.mem_cons_self ..)
    rw [List.flatMap_cons, List.append_assoc, readInstructions_encode hs hw,
      ih fun j hj => h j (List.mem_cons_of_mem _ hj), Reading.after_after, rebuild_cons]

/-! ## What is read was written -/

/-- The bytes that follow the opcode of a copy are an offset and a length. -/
theorem eq_encode_of_copy {bs : Bytes} (h : ¬ bs.length < 12) :
    ∃ (offset : UInt64) (length : UInt32), offset.toNat = BigEndian.decode (bs.take 8) ∧
      length.toNat = BigEndian.decode ((bs.take 12).drop 8) ∧
      copyOpcode :: bs = (Instruction.copy offset length).encode ++ bs.drop 12 := by
  have hl₁ : (bs.take 8).length = 8 := by rw [List.length_take]; omega
  have hl₂ : ((bs.take 12).drop 8).length = 4 := by
    rw [List.length_drop, List.length_take]; omega
  have ho := BigEndian.decode_lt (bs.take 8)
  have hn := BigEndian.decode_lt ((bs.take 12).drop 8)
  rw [hl₁] at ho
  rw [hl₂] at hn
  have ho' : (UInt64.ofNat (BigEndian.decode (bs.take 8))).toNat = BigEndian.decode (bs.take 8) :=
    UInt64.toNat_ofNat_of_lt' ho
  have hn' : (UInt32.ofNat (BigEndian.decode ((bs.take 12).drop 8))).toNat =
      BigEndian.decode ((bs.take 12).drop 8) :=
    UInt32.toNat_ofNat_of_lt' hn
  refine ⟨_, _, ho', hn', ?_⟩
  have he₁ := BigEndian.encode_decode (bs.take 8)
  have he₂ := BigEndian.encode_decode ((bs.take 12).drop 8)
  rw [hl₁] at he₁
  rw [hl₂] at he₂
  have htake : bs.take 8 = (bs.take 12).take 8 := by rw [List.take_take]; rfl
  rw [Instruction.encode, ho', hn', he₁, he₂, htake, List.cons_append, List.cons_append,
    List.take_append_drop, List.take_append_drop]

/-- The bytes that follow the opcode of an insertion are a length and the bytes to insert. -/
theorem eq_encode_of_insertion {bs : Bytes} (h : ¬ bs.length < 4)
    (hb : ¬ bs.length < 4 + BigEndian.decode (bs.take 4)) :
    let inserted := (bs.drop 4).take (BigEndian.decode (bs.take 4))
    inserted.length < UInt32.size ∧ insertOpcode :: bs =
      (Instruction.insert inserted).encode ++ bs.drop (4 + BigEndian.decode (bs.take 4)) := by
  intro inserted
  have hl : (bs.take 4).length = 4 := by rw [List.length_take]; omega
  have hn := BigEndian.decode_lt (bs.take 4)
  rw [hl] at hn
  have hlen : inserted.length = BigEndian.decode (bs.take 4) := by
    rw [List.length_take, List.length_drop]; omega
  have he := BigEndian.encode_decode (bs.take 4)
  rw [hl] at he
  refine ⟨by rw [hlen]; exact hn, ?_⟩
  rw [Instruction.encode, hlen, he, List.cons_append, List.cons_append, List.append_assoc,
    ← List.drop_drop, List.take_append_drop, List.take_append_drop]

/-- Instructions that build `out`, their closing, and what follows it. -/
def Written (basis bs out : Bytes) (checksum : Digest) (trailing : Bytes) : Prop :=
  ∃ is : List Instruction, (∀ i ∈ is, i.Sized ∧ i.Within basis.length) ∧
    bs = is.flatMap Instruction.encode ++ (Instruction.close checksum).encode ++ trailing ∧
    out = rebuild basis is

theorem Written.cons {basis bs rest out : Bytes} {checksum : Digest} {trailing : Bytes}
    {i : Instruction} (hs : i.Sized) (hw : i.Within basis.length) (he : bs = i.encode ++ rest)
    (h : Written basis rest out checksum trailing) :
    Written basis bs (i.bytes basis ++ out) checksum trailing := by
  obtain ⟨is, his, hrest, hout⟩ := h
  refine ⟨i :: is, ?_, ?_, by rw [rebuild_cons, hout]⟩
  · intro j hj
    rcases List.mem_cons.mp hj with rfl | hj
    · exact ⟨hs, hw⟩
    · exact his j hj
  · rw [he, hrest]
    simp

theorem exists_of_after {r : Reading} {bs out : Bytes} {ending : Ending}
    (h : r.after bs = ⟨out, ending⟩) : ∃ out', out = bs ++ out' ∧ r = ⟨out', ending⟩ := by
  obtain ⟨out', ending'⟩ := r
  simp only [Reading.after, Reading.mk.injEq] at h
  exact ⟨out', h.1.symm, by rw [h.2]⟩

/-- Instructions that are read to their closing were written. -/
theorem written_of_closed {basis bs out : Bytes} {checksum : Digest} {trailing : Bytes}
    (h : readInstructions basis bs = ⟨out, .closed checksum trailing⟩) :
    Written basis bs out checksum trailing := by
  induction bs using readInstructions.induct basis generalizing out with
  | case1 => simp [readInstructions, Reading.early, Reading.refused] at h
  | case2 bs hl =>
    simp [readInstructions_copy, readCopy, hl, Reading.early, Reading.refused] at h
  | case3 bs offset length hl hw =>
    rename_i ih
    obtain ⟨offset', length', ho, hn, he⟩ := eq_encode_of_copy hl
    rw [readInstructions_copy, readCopy] at h
    simp only [if_neg hl, ← ho, ← hn] at h
    have hw' : offset'.toNat + length'.toNat ≤ basis.length := by rw [ho, hn]; exact hw
    rw [if_pos hw'] at h
    obtain ⟨out', rfl, hr⟩ := exists_of_after h
    exact (ih hr).cons (i := .copy offset' length') trivial hw' he
  | case4 bs offset length hl =>
    rename_i hw
    rw [readInstructions_copy, readCopy] at h
    simp only [if_neg hl] at h
    rw [if_neg hw] at h
    simp [Reading.refused] at h
  | case5 bs hl =>
    simp [readInstructions_insert, readInsertion, hl, Reading.early, Reading.refused] at h
  | case6 bs length hl hb =>
    rw [readInstructions_insert, readInsertion, if_neg hl, readInserted,
      if_pos (by rw [List.length_drop]; omega)] at h
    simp [Reading.early, Reading.refused, Reading.after] at h
  | case7 bs length hl hb hne =>
    rename_i ih
    obtain ⟨hs, he⟩ := eq_encode_of_insertion hl hb
    rw [readInstructions_insert, readInsertion, if_neg hl, readInserted,
      if_neg (by rw [List.length_drop]; omega), List.drop_drop] at h
    obtain ⟨out', rfl, hr⟩ := exists_of_after h
    exact (ih hr).cons (i := .insert _) hs trivial he
  | case8 bs hl =>
    simp [readInstructions_close, readClosing, hl, Reading.early, Reading.refused] at h
  | case9 bs hl =>
    rw [readInstructions_close, readClosing, if_neg hl] at h
    simp only [Reading.mk.injEq, Ending.closed.injEq] at h
    obtain ⟨rfl, rfl, rfl⟩ := h
    have ht : (bs.take digestLength).length = digestLength := by rw [List.length_take]; omega
    have hd : (Digest.ofInitial (bs.take digestLength)).bytes = bs.take digestLength := by
      simp [Digest.ofInitial, ht, List.take_of_length_le (Nat.le_of_eq ht)]
    refine ⟨[], by simp, ?_, rfl⟩
    simp [Instruction.encode, hd]
  | case10 code bs hc hi hcl =>
    rw [readInstructions_cons, if_neg hc, if_neg hi, if_neg hcl] at h
    simp [Reading.refused] at h

theorem readInstructions_of_written {basis bs out : Bytes} {checksum : Digest} {trailing : Bytes}
    (h : Written basis bs out checksum trailing) :
    readInstructions basis bs = ⟨out, .closed checksum trailing⟩ := by
  obtain ⟨is, his, rfl, rfl⟩ := h
  rw [List.append_assoc, readInstructions_flatMap_encode his, Instruction.encode, List.cons_append,
    readInstructions_close, readClosing_encode, Reading.after, List.append_nil]

/-- A byte string that starts with the mark. -/
theorem readDelta_mark (basis bs : Bytes) :
    readDelta basis (deltaMark ++ bs) = readInstructions basis bs := by
  rw [readDelta, if_neg (by simp), List.take_left, if_pos rfl, List.drop_left]

/-- **The byte strings that are read to the end of their closing are the deltas.** -/
theorem readDelta_closed_iff (basis bs out : Bytes) (checksum : Digest) :
    readDelta basis bs = ⟨out, .closed checksum []⟩ ↔
      ∃ is : List Instruction, (∀ i ∈ is, i.Sized ∧ i.Within basis.length) ∧
        bs = deltaMark ++ is.flatMap Instruction.encode ++ (Instruction.close checksum).encode ∧
        out = rebuild basis is := by
  constructor
  · intro h
    rw [readDelta] at h
    by_cases hl : bs.length < deltaMark.length
    · rw [if_pos hl] at h
      simp [Reading.early, Reading.refused] at h
    · rw [if_neg hl] at h
      by_cases hm : bs.take deltaMark.length = deltaMark
      · rw [if_pos hm] at h
        obtain ⟨is, his, hbs, hout⟩ := written_of_closed h
        refine ⟨is, his, ?_, hout⟩
        rw [List.append_nil] at hbs
        rw [List.append_assoc, ← hbs]
        conv => lhs; rw [← List.take_append_drop deltaMark.length bs, hm]
      · rw [if_neg hm] at h
        simp [Reading.refused] at h
  · rintro ⟨is, his, rfl, rfl⟩
    rw [List.append_assoc, readDelta_mark]
    exact readInstructions_of_written ⟨is, his, by rw [List.append_nil], rfl⟩

end BlockSync
