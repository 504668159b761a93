import BlockSync.Proofs.Delta.Encoding
import BlockSync.Proofs.Delta.Matching
import BlockSync.Proofs.Delta.Reading
import BlockSync.Proofs.Signature.Blocks

/-!
# What the delta of a file builds

A delta is made against a signature that may have nothing to do with the basis it is applied to.

* `Instruction.Plain`, `builtLength`: what the instructions of a file have in common whatever the
  signature is, and how many bytes they build;
* **`Signature.builtLength_body`**: they can be written, and build as many bytes as the file has;
* `Signature.length_delta_le`: their size on the wire;
* `readDelta_of_within`, `readDelta_of_outside`: how they are read against any basis;
* **`Signature.rebuild_body`**, `Signature.truthful_ofBytes`: from the basis of the signature they
  build the file, if there is no false match.
-/

namespace BlockSync

/-! ## Instructions of a file -/

/-- The instruction can be written, and builds something. -/
structure Instruction.Plain (i : Instruction) : Prop where
  sized : i.Sized
  pos : 0 < i.fileLength

/-- How many bytes instructions build from a basis within which their copies lie. -/
def builtLength (is : List Instruction) : Nat := (is.map Instruction.fileLength).sum

@[simp] theorem builtLength_cons (i : Instruction) (is : List Instruction) :
    builtLength (i :: is) = i.fileLength + builtLength is := rfl

theorem builtLength_append (is js : List Instruction) :
    builtLength (is ++ js) = builtLength is + builtLength js := by
  simp [builtLength]

theorem Instruction.length_bytes {basis : Bytes} {i : Instruction} (h : i.Within basis.length) :
    (i.bytes basis).length = i.fileLength := by
  cases i with
  | copy offset length =>
    have hw : offset.toNat + length.toNat ≤ basis.length := h
    simp only [bytes, fileLength, List.length_take, List.length_drop]
    omega
  | insert => rfl
  | close => rfl

theorem length_rebuild {basis : Bytes} {is : List Instruction}
    (h : ∀ i ∈ is, i.Within basis.length) : (rebuild basis is).length = builtLength is := by
  induction is with
  | nil => rfl
  | cons i is ih =>
    rw [rebuild_cons, builtLength_cons, List.length_append,
      Instruction.length_bytes (h i (List.mem_cons_self ..)),
      ih fun j hj => h j (List.mem_cons_of_mem _ hj)]

/-- On the wire plain instructions take at most what copies of single bytes would take. -/
theorem Instruction.Plain.wireLength_le {i : Instruction} (h : i.Plain) :
    i.wireLength ≤ 13 * i.fileLength := by
  have hpos := h.pos
  cases i with
  | copy => simp only [wireLength, fileLength] at *; omega
  | insert => simp only [wireLength, fileLength] at *; omega
  | close => exact h.sized.elim

theorem length_encode_le {is : List Instruction} (h : ∀ i ∈ is, i.Plain) :
    (is.flatMap Instruction.encode).length ≤ 13 * builtLength is := by
  induction is with
  | nil => exact Nat.le_refl 0
  | cons i is ih =>
    have hi := (h i (List.mem_cons_self ..)).wireLength_le
    have his := ih fun j hj => h j (List.mem_cons_of_mem _ hj)
    rw [List.flatMap_cons, List.length_append, Instruction.length_encode, builtLength_cons]
    omega

/-! ## Joining -/

/-- What holds of instructions and those that joining makes of them, one by one. -/
theorem join_induction {P : List Instruction → List Instruction → Prop} (nil : P [] [])
    (keep : ∀ (i : Instruction) {is js : List Instruction}, P is js → P (i :: is) (i :: js))
    (merge : ∀ {offset offset' : UInt64} {length length' : UInt32} {is js : List Instruction},
      offset.toNat + length.toNat = offset'.toNat →
      (length + length').toNat = length.toNat + length'.toNat →
      P (.copy offset (length + length') :: is) js →
      P (.copy offset length :: .copy offset' length' :: is) js) (is : List Instruction) :
    P is (join is) := by
  fun_induction join is with
  | case1 offset length offset' length' is h ih =>
    refine merge h.1 ?_ ih
    rw [UInt32.toNat_add]
    exact Nat.mod_eq_of_lt h.2
  | case2 offset length offset' length' is h ih => exact keep _ ih
  | case3 i is _ ih => exact keep _ ih
  | case4 => exact nil

theorem rebuild_join (basis : Bytes) (is : List Instruction) :
    rebuild basis (join is) = rebuild basis is := by
  refine join_induction (P := fun is js => rebuild basis js = rebuild basis is) rfl ?_ ?_ is
  · intro i is js h
    rw [rebuild_cons, rebuild_cons, h]
  · intro offset offset' length length' is js ho hl h
    rw [h, rebuild_cons, rebuild_cons, rebuild_cons, ← List.append_assoc]
    simp only [Instruction.bytes]
    rw [hl, List.take_add, List.drop_drop, ho]

theorem builtLength_join (is : List Instruction) : builtLength (join is) = builtLength is := by
  refine join_induction (P := fun is js => builtLength js = builtLength is) rfl ?_ ?_ is
  · intro i is js h
    rw [builtLength_cons, builtLength_cons, h]
  · intro offset offset' length length' is js _ hl h
    simp only [h, builtLength_cons, Instruction.fileLength, hl, Nat.add_assoc]

theorem plain_join {is : List Instruction} (h : ∀ i ∈ is, i.Plain) : ∀ i ∈ join is, i.Plain := by
  refine join_induction (P := fun is js => (∀ i ∈ is, i.Plain) → ∀ i ∈ js, i.Plain) id ?_ ?_ is h
  · intro i is js ih h
    rw [List.forall_mem_cons] at h ⊢
    exact ⟨h.1, ih h.2⟩
  · intro offset offset' length length' is js _ hl ih h
    simp only [List.forall_mem_cons] at h ih
    refine ih ⟨⟨trivial, ?_⟩, h.2.2⟩
    have hpos : 0 < length.toNat := h.1.pos
    simp only [Instruction.fileLength, hl]
    omega

theorem within_join {size : Nat} {is : List Instruction} (h : ∀ i ∈ is, i.Within size) :
    ∀ i ∈ join is, i.Within size := by
  refine join_induction (P := fun is js => (∀ i ∈ is, i.Within size) → ∀ i ∈ js, i.Within size) id
    ?_ ?_ is h
  · intro i is js ih h
    rw [List.forall_mem_cons] at h ⊢
    exact ⟨h.1, ih h.2⟩
  · intro offset offset' length length' is js ho hl ih h
    simp only [List.forall_mem_cons] at h ih
    refine ih ⟨?_, h.2.2⟩
    have hw : offset'.toNat + length'.toNat ≤ size := h.2.1
    simp only [Instruction.Within, hl]
    omega

/-! ## Gathering -/

namespace Advance

/-- What a part of a file adds to what is built from a basis. -/
def bytes (basis : Bytes) : Advance → Bytes
  | block offset length => (basis.drop offset.toNat).take length.toNat
  | byte b => [b]
  | tail bs => bs

/-- The length of a part of a file. -/
def fileLength : Advance → Nat
  | block _ length => length.toNat
  | byte _ => 1
  | tail bs => bs.length

/-- A block lies within a basis of `size` bytes. -/
def Within (size : Nat) : Advance → Prop
  | block offset length => offset.toNat + length.toNat ≤ size
  | _ => True

end Advance

theorem rebuild_append (basis : Bytes) (is js : List Instruction) :
    rebuild basis (is ++ js) = rebuild basis is ++ rebuild basis js := by
  simp [rebuild]

theorem rebuild_insertion (basis bs : Bytes) : rebuild basis (insertion bs) = bs := by
  unfold insertion
  split
  · next h => rw [h, rebuild_nil]
  · rw [rebuild_cons, rebuild_nil, List.append_nil]; rfl

theorem builtLength_insertion (bs : Bytes) : builtLength (insertion bs) = bs.length := by
  unfold insertion
  split
  · next h => rw [h]; rfl
  · rfl

theorem plain_insertion {bs : Bytes} (h : bs.length < UInt32.size) :
    ∀ i ∈ insertion bs, i.Plain := by
  unfold insertion
  split
  · exact List.forall_mem_nil _
  · next hne =>
    intro i hi
    obtain rfl : i = .insert bs := List.mem_singleton.mp hi
    exact ⟨h, List.length_pos_iff.mpr hne⟩

theorem within_insertion (size : Nat) (bs : Bytes) : ∀ i ∈ insertion bs, i.Within size := by
  unfold insertion
  split
  · exact List.forall_mem_nil _
  · intro i hi
    obtain rfl : i = .insert bs := List.mem_singleton.mp hi
    trivial

theorem rebuild_gather (basis run : Bytes) (way : List Advance) :
    rebuild basis (gather run way) = run ++ way.flatMap (·.bytes basis) := by
  fun_induction gather run way with
  | case1 run => rw [rebuild_insertion, List.flatMap_nil, List.append_nil]
  | case2 run offset length way ih =>
    rw [rebuild_append, rebuild_insertion, rebuild_cons, ih, List.nil_append, List.flatMap_cons]
    rfl
  | case3 run b way _ ih =>
    rw [rebuild_cons, ih, List.nil_append, List.flatMap_cons]
    simp [Instruction.bytes, Advance.bytes]
  | case4 run b way _ ih =>
    rw [ih, List.flatMap_cons, List.append_assoc]
    rfl
  | case5 run bs way ih =>
    rw [ih, List.flatMap_cons, List.append_assoc]
    rfl

theorem builtLength_gather (run : Bytes) (way : List Advance) :
    builtLength (gather run way) = run.length + (way.map Advance.fileLength).sum := by
  fun_induction gather run way with
  | case1 run => rw [builtLength_insertion]; rfl
  | case2 run offset length way ih =>
    rw [builtLength_append, builtLength_insertion, builtLength_cons, ih]
    simp [Instruction.fileLength, Advance.fileLength]
  | case3 run b way _ ih =>
    rw [builtLength_cons, ih]
    simp [Instruction.fileLength, Advance.fileLength, Nat.add_assoc]
  | case4 run b way _ ih =>
    rw [ih]
    simp [Advance.fileLength, Nat.add_assoc]
  | case5 run bs way ih =>
    rw [ih]
    simp [Advance.fileLength, Nat.add_assoc]

theorem within_gather {size : Nat} (run : Bytes) {way : List Advance}
    (h : ∀ a ∈ way, a.Within size) : ∀ i ∈ gather run way, i.Within size := by
  fun_induction gather run way with
  | case1 run => exact within_insertion size run
  | case2 run offset length way ih =>
    rw [List.forall_mem_cons] at h
    rw [List.forall_mem_append, List.forall_mem_cons]
    exact ⟨within_insertion size run, h.1, ih h.2⟩
  | case3 run b way _ ih =>
    rw [List.forall_mem_cons] at h ⊢
    exact ⟨trivial, ih h.2⟩
  | case4 run b way _ ih => exact ih (List.forall_mem_cons.mp h).2
  | case5 run bs way ih => exact ih (List.forall_mem_cons.mp h).2

/-! ## The way along a file -/

namespace Signature

variable {s : Signature} {file : Bytes}

/-- What holds of the way along a file, advance by advance. -/
theorem advances_induction {P : Bytes → List Advance → Prop} (hp : 0 < s.blockLength)
    (last : ∀ {bs : Bytes}, bs.length < s.blockLength → P bs (s.lastAdvance bs))
    (block : ∀ {bs : Bytes} {b : BlockSum}, s.blockLength ≤ bs.length →
      s.find? (bs.take s.blockLength) = some b → P (bs.drop s.blockLength)
        (s.advances (bs.drop s.blockLength)) →
      P bs (s.copied b s.blockLength :: s.advances (bs.drop s.blockLength)))
    (byte : ∀ {b : UInt8} {bs : Bytes}, s.blockLength ≤ bs.length + 1 →
      s.find? ((b :: bs).take s.blockLength) = none → P bs (s.advances bs) →
      P (b :: bs) (.byte b :: s.advances bs)) (bs : Bytes) : P bs (s.advances bs) := by
  induction h : bs.length using Nat.strongRecOn generalizing bs with
  | ind n ih =>
    subst h
    rcases Nat.lt_or_ge bs.length s.blockLength with hl | hl
    · rw [advances_of_lt hl]
      exact last hl
    · cases hf : s.find? (bs.take s.blockLength) with
      | some b =>
        rw [advances_of_some hp hl hf]
        exact block hl hf (ih _ (by rw [List.length_drop]; omega) _ rfl)
      | none =>
        cases bs with
        | nil => simp only [List.length_nil] at hl; omega
        | cons b bs =>
          rw [advances_of_none hp hl hf]
          exact byte hl hf (ih _ (Nat.lt_succ_self _) _ rfl)

theorem blockLength_lt (s : Signature) : s.blockLength < UInt32.size := s.params.blockLength.toNat_lt

theorem blockLength_pos (hs : s.params.Valid) : 0 < s.blockLength :=
  Nat.lt_of_lt_of_le (by decide) hs.le_blockLength

theorem fileLength_copied (b : BlockSum) {n : Nat} (h : n < UInt32.size) :
    (s.copied b n).fileLength = n := by
  rw [copied, Advance.fileLength, UInt32.toNat_ofNat_of_lt' h]

/-- The parts of a file are as long as the file. -/
theorem fileLength_advances (hp : 0 < s.blockLength) (file : Bytes) :
    ((s.advances file).map Advance.fileLength).sum = file.length := by
  refine advances_induction (P := fun bs way => (way.map Advance.fileLength).sum = bs.length) hp
    ?_ ?_ ?_ file
  · intro bs hl
    unfold lastAdvance
    split
    · next h => rw [h]; rfl
    · split
      · simp [fileLength_copied _ (Nat.lt_trans hl s.blockLength_lt)]
      · simp [Advance.fileLength]
  · intro bs b hl _ ih
    rw [List.map_cons, List.sum_cons, ih, fileLength_copied b s.blockLength_lt, List.length_drop]
    omega
  · intro b bs _ _ ih
    rw [List.map_cons, List.sum_cons, ih, List.length_cons, Advance.fileLength, Nat.add_comm]

theorem plain_copied (b : BlockSum) {n : Nat} (hpos : 0 < n) (h : n < UInt32.size) :
    (Instruction.copy (UInt64.ofNat (b.index.toNat * s.blockLength)) (UInt32.ofNat n)).Plain := by
  refine ⟨trivial, ?_⟩
  have hlen := s.fileLength_copied b h
  simp only [copied, Advance.fileLength] at hlen
  rw [Instruction.fileLength, hlen]
  exact hpos

/-- The way along a file is gathered into plain instructions: no run becomes longer than the limit and
a block. -/
theorem plain_gather_advances (hp : 0 < s.blockLength) (hle : s.blockLength ≤ 65536)
    (file run : Bytes) (hrun : run.length < insertLimit) :
    ∀ i ∈ gather run (s.advances file), i.Plain := by
  have hlimit : insertLimit + 65536 < UInt32.size := by decide
  -- the run at hand is short until the last advance, which may add a block's length to it
  refine advances_induction (P := fun _ way => ∀ run : Bytes, run.length < insertLimit →
    ∀ i ∈ gather run way, i.Plain) hp ?_ ?_ ?_ file run hrun
  · intro bs hl run hrun
    unfold lastAdvance
    split
    · exact plain_insertion (by omega)
    · next hne =>
      split
      · next b _ =>
        simp only [copied, gather, List.forall_mem_append, List.forall_mem_cons]
        exact ⟨plain_insertion (by omega),
          plain_copied b (List.length_pos_iff.mpr hne) (by omega), List.forall_mem_nil _⟩
      · simp only [gather]
        refine plain_insertion ?_
        rw [List.length_append]
        omega
  · intro bs b hl _ ih run hrun
    simp only [copied, gather, List.forall_mem_append, List.forall_mem_cons]
    exact ⟨plain_insertion (by omega), plain_copied b hp s.blockLength_lt, ih [] (by decide)⟩
  · intro b bs _ _ ih run hrun
    rw [gather]
    split
    · rw [List.forall_mem_cons]
      refine ⟨⟨?_, by simp [Instruction.fileLength]⟩, ih [] (by decide)⟩
      simp only [Instruction.Sized, List.length_append, List.length_singleton]
      omega
    · refine ih (run ++ [b]) ?_
      rw [List.length_append, List.length_singleton]
      omega

/-! ## The delta of a file -/

theorem plain_body (hs : s.params.Valid) (file : Bytes) : ∀ i ∈ s.body file, i.Plain :=
  plain_join (plain_gather_advances (blockLength_pos hs) hs.blockLength_le file [] (by decide))

/-- **Whatever the signature, the delta of a file builds as many bytes as the file has**, if it can be
applied at all. -/
theorem builtLength_body (hs : s.params.Valid) (file : Bytes) :
    builtLength (s.body file) = file.length := by
  rw [body, builtLength_join, builtLength_gather, fileLength_advances (blockLength_pos hs),
    List.length_nil, Nat.zero_add]

theorem length_delta_le (hs : s.params.Valid) (file : Bytes) :
    (s.delta file).length ≤ DeltaEncoder.outputBound file.length := by
  have hbody := length_encode_le (s.plain_body hs file)
  rw [builtLength_body hs] at hbody
  have hclose := Instruction.length_encode (.close (Blake3.hash file))
  have hmark : deltaMark.length = 4 := rfl
  have hdigest : digestLength = 32 := rfl
  simp only [delta, instructions, List.flatMap_append, List.flatMap_singleton, List.length_append,
    DeltaEncoder.outputBound, hclose, Instruction.wireLength]
  omega

theorem delta_eq (s : Signature) (file : Bytes) :
    s.delta file = deltaMark ++ ((s.body file).flatMap Instruction.encode ++
      (Instruction.close (Blake3.hash file)).encode) := by
  rw [delta, instructions, List.flatMap_append, List.flatMap_singleton]

end Signature

/-- What an encoder will put out of a file that is not longer than `n`. -/
theorem DeltaEncoder.length_future_le {s : Signature} (hs : s.params.Valid) {file : Bytes} {n : Nat}
    (h : file.length ≤ n) :
    ((outlook s).future (start (.ofSignature s)) file).output.length ≤ outputBound n := by
  rw [future_start]
  exact Nat.le_trans (s.length_delta_le hs file) (Nat.add_le_add_left (Nat.mul_le_mul_left 13 h) 37)

/-! ## Read again -/

/-- A delta whose copies lie within the basis is read to its end. -/
theorem readDelta_of_within {s : Signature} (hs : s.params.Valid) {basis file : Bytes}
    (h : ∀ i ∈ s.body file, i.Within basis.length) :
    readDelta basis (s.delta file) = ⟨rebuild basis (s.body file), .closed (Blake3.hash file) []⟩ := by
  refine (readDelta_closed_iff ..).mpr ⟨s.body file, fun i hi => ?_, ?_, rfl⟩
  · exact ⟨(s.plain_body hs file i hi).sized, h i hi⟩
  · rw [s.delta_eq, List.append_assoc]

/-- Instructions with a copy that lies outside the basis are read up to the first such copy. -/
theorem readInstructions_of_outside {basis : Bytes} {is : List Instruction}
    (hs : ∀ i ∈ is, i.Sized) (h : ¬ ∀ i ∈ is, i.Within basis.length) (rest : Bytes) :
    ∃ offset length, (readInstructions basis (is.flatMap Instruction.encode ++ rest)).ending =
      .refused (.copyOutOfBounds offset length basis.length) := by
  induction is with
  | nil => exact absurd (List.forall_mem_nil _) h
  | cons i is ih =>
    rw [List.forall_mem_cons] at hs h
    rw [List.flatMap_cons, List.append_assoc]
    by_cases hw : i.Within basis.length
    · rw [readInstructions_encode hs.1 hw]
      exact ih hs.2 fun hall => h ⟨hw, hall⟩
    · cases i with
      | copy offset length =>
        refine ⟨offset.toNat, length.toNat, ?_⟩
        rw [Instruction.encode, List.cons_append, List.cons_append, readInstructions_copy,
          readCopy_encode,
          if_neg (show ¬ offset.toNat + length.toNat ≤ basis.length from hw)]
        rfl
      | insert bs => exact absurd trivial hw
      | close => exact hs.1.elim

theorem readDelta_of_outside {s : Signature} (hs : s.params.Valid) {basis file : Bytes}
    (h : ¬ ∀ i ∈ s.body file, i.Within basis.length) :
    ∃ offset length, (readDelta basis (s.delta file)).ending =
      .refused (.copyOutOfBounds offset length basis.length) := by
  rw [s.delta_eq, readDelta_mark]
  exact readInstructions_of_outside (fun i hi => (s.plain_body hs file i hi).sized) h _

/-! ## The file again -/

/-- Bytes of a file that may be compared with a block of `n` bytes: as many of them anywhere, or fewer
at the end. -/
def Window (n : Nat) (file bs : Bytes) : Prop :=
  (bs.length = n ∧ bs <:+: file) ∨ (bs ≠ [] ∧ bs.length < n ∧ bs <:+ file)

namespace Signature

variable {s : Signature} {basis file : Bytes}

/-- Where bytes of a file agree with a block, the basis has the same bytes. -/
def Truthful (s : Signature) (basis file : Bytes) : Prop :=
  ∀ bs b, Window s.blockLength file bs → s.find? bs = some b →
    b.index.toNat * s.blockLength + bs.length ≤ basis.length ∧
      (basis.drop (b.index.toNat * s.blockLength)).take bs.length = bs

theorem copied_of_truthful (h : s.Truthful basis file) {bs : Bytes} {b : BlockSum}
    (hw : Window s.blockLength file bs) (hf : s.find? bs = some b) (hl : bs.length < UInt32.size) :
    (s.copied b bs.length).bytes basis = bs ∧ (s.copied b bs.length).Within basis.length := by
  obtain ⟨hle, hbs⟩ := h bs b hw hf
  have ho : (UInt64.ofNat (b.index.toNat * s.blockLength)).toNat =
      b.index.toNat * s.blockLength := by
    have hlt : b.index.toNat * s.blockLength < UInt32.size * UInt32.size :=
      Nat.mul_lt_mul_of_lt_of_le b.index.toNat_lt (Nat.le_of_lt s.blockLength_lt) (by decide)
    exact UInt64.toNat_ofNat_of_lt' hlt
  have hn : (UInt32.ofNat bs.length).toNat = bs.length :=
    UInt32.toNat_ofNat_of_lt' hl
  simp only [copied, Advance.bytes, Advance.Within, ho, hn]
  exact ⟨hbs, hle⟩

theorem advances_of_truthful (hp : 0 < s.blockLength) (h : s.Truthful basis file) :
    (s.advances file).flatMap (·.bytes basis) = file ∧
      ∀ a ∈ s.advances file, a.Within basis.length := by
  have hlt := s.blockLength_lt
  -- the signature is truthful of the windows of the file only, so what is left is an end of it
  refine advances_induction (P := fun bs way => bs <:+ file →
    way.flatMap (·.bytes basis) = bs ∧ ∀ a ∈ way, a.Within basis.length) hp ?_ ?_ ?_ file
    (List.suffix_refl file)
  · intro bs hl hsuffix
    unfold lastAdvance
    split
    · next hnil => exact ⟨hnil.symm, List.forall_mem_nil _⟩
    · next hne =>
      split
      · next b hf =>
        obtain ⟨hbytes, hwithin⟩ :=
          copied_of_truthful h (.inr ⟨hne, hl, hsuffix⟩) hf (Nat.lt_trans hl hlt)
        rw [List.flatMap_singleton, List.forall_mem_singleton]
        exact ⟨hbytes, hwithin⟩
      · rw [List.flatMap_singleton, List.forall_mem_singleton]
        exact ⟨rfl, trivial⟩
  · intro bs b hl hf ih hsuffix
    have hlen : (bs.take s.blockLength).length = s.blockLength := by
      rw [List.length_take]
      omega
    have hinfix : bs.take s.blockLength <:+: file :=
      (List.take_prefix _ _).isInfix.trans hsuffix.isInfix
    obtain ⟨hbytes, hwithin⟩ :=
      copied_of_truthful h (.inl ⟨hlen, hinfix⟩) hf (by rw [hlen]; exact hlt)
    rw [hlen] at hbytes hwithin
    obtain ⟨hrest, hall⟩ := ih ((List.drop_suffix _ _).trans hsuffix)
    rw [List.flatMap_cons, List.forall_mem_cons, hbytes, hrest, List.take_append_drop]
    exact ⟨rfl, hwithin, hall⟩
  · intro b bs _ _ ih hsuffix
    obtain ⟨hrest, hall⟩ := ih ((List.suffix_cons b bs).trans hsuffix)
    rw [List.flatMap_cons, List.forall_mem_cons, hrest]
    exact ⟨rfl, trivial, hall⟩

/-- **From the basis of a truthful signature, the delta of a file builds the file.** -/
theorem rebuild_body (hs : s.params.Valid) (h : s.Truthful basis file) :
    rebuild basis (s.body file) = file ∧ ∀ i ∈ s.body file, i.Within basis.length := by
  obtain ⟨hbytes, hwithin⟩ := advances_of_truthful (blockLength_pos hs) h
  refine ⟨?_, within_join (within_gather [] hwithin)⟩
  rw [body, rebuild_join, rebuild_gather, hbytes, List.nil_append]

end Signature

/-- Bytes of a file agree only with blocks of a basis that they are equal to. -/
def NoFalseMatch (p : Params) (basis file : Bytes) : Prop :=
  ∀ bs block, Window p.blockLength.toNat file bs → block ∈ blocksOf p.blockLength.toNat basis →
    (RollingSum.ofBytes bs).packed = (RollingSum.ofBytes block).packed →
    (Blake3.hash bs).initial p.strongLength.toNat = (Blake3.hash block).initial p.strongLength.toNat →
    bs = block

/-- **Without a false match the signature of a basis tells the truth about a file**, as long as the
blocks of the basis can be counted. -/
theorem Signature.truthful_ofBytes {s : Signature} {p : Params} {basis file : Bytes} (hp : p.Valid)
    (h : ofBytes p basis = .ok s) (hcount : (blocksOf p.blockLength.toNat basis).length ≤ UInt32.size)
    (hm : NoFalseMatch p basis file) : s.Truthful basis file := by
  obtain ⟨s', hs', rfl, hblocks⟩ := ofBytes_spec hp basis
  obtain rfl : s = s' := Except.ok.inj (h.symm.trans hs')
  intro bs b hw hf
  obtain ⟨i, hi, rfl⟩ := List.mem_mapIdx.mp (hblocks ▸ List.mem_of_find?_eq_some hf)
  have hagree := List.find?_some hf
  simp only [BlockSum.ofBytes, Digest.agrees, Digest.initial_ofInitial, Bool.and_eq_true,
    beq_iff_eq] at hagree
  obtain ⟨hweak, hstrong⟩ := hagree
  obtain rfl := hm bs _ hw (List.getElem_mem hi) hweak.symm hstrong.symm
  have hindex : (UInt32.ofNat i).toNat = i :=
    UInt32.toNat_ofNat_of_lt' (Nat.lt_of_lt_of_le hi hcount)
  obtain ⟨hpart, hle⟩ := getElem?_blocksOf (blockLength_pos hp) (List.getElem?_eq_getElem hi)
  simp only [BlockSum.ofBytes, hindex]
  refine ⟨hle, (List.prefix_iff_eq_take.mp ?_).symm⟩
  rw [hpart]
  exact List.take_prefix _ _

/-! ## A small file -/

theorem within_mixedFile (size : Nat) :
    (∀ i ∈ twoBlocks.body mixedFile, i.Within size) ↔ 128 ≤ size := by
  simp [body_mixedFile, Instruction.Within]
  omega

/-- The file is built from the blocks of the signature. -/
theorem rebuild_mixedFile :
    rebuild (.replicate 64 1 ++ .replicate 64 2) (twoBlocks.body mixedFile) = mixedFile := by
  rw [body_mixedFile]
  decide +kernel

end BlockSync
