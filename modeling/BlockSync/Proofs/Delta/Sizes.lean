import BlockSync.Proofs.Delta.Completeness

/-!
# The size of a delta

* `wireSize`: the bytes that instructions take on the wire;
* `foldl_add_zero`: the totals are the numbers of copies and insertions, and the bytes that they build;
* `measure_foldl`, `total_foldl`, `wireSize_foldl`: what can be told from totals, the size on the wire
  among it;
* **`Signature.wireSize_body_le`**: whatever the signature, a delta is hardly longer than its file. An
  insertion costs five bytes, but only a full one is not paid for by what is copied behind it.
-/

namespace BlockSync

/-- The instruction is an insertion. -/
def Instruction.isInsert : Instruction → Bool
  | insert _ => true
  | _ => false

/-- How many bytes instructions take on the wire. -/
def wireSize (is : List Instruction) : Nat := (is.map Instruction.wireLength).sum

@[simp] theorem wireSize_nil : wireSize [] = 0 := rfl

@[simp] theorem wireSize_cons (i : Instruction) (is : List Instruction) :
    wireSize (i :: is) = i.wireLength + wireSize is := rfl

@[simp] theorem wireSize_append (is js : List Instruction) :
    wireSize (is ++ js) = wireSize is + wireSize js := by
  simp [wireSize]

theorem length_flatMap_encode (is : List Instruction) :
    (is.flatMap Instruction.encode).length = wireSize is := by
  rw [List.length_flatMap, wireSize]
  simp only [Instruction.length_encode]

/-! ## Totals -/

/-- The totals are numbers of instructions and what these build. -/
theorem foldl_add (is : List Instruction) (t : DeltaTotals) :
    is.foldl DeltaTotals.add t =
      { copies := t.copies + is.countP Instruction.isCopy
        inserts := t.inserts + is.countP Instruction.isInsert
        copied := t.copied + builtLength (is.filter Instruction.isCopy)
        inserted := t.inserted + builtLength (is.filter Instruction.isInsert) } := by
  induction is generalizing t with
  | nil => rfl
  | cons i is ih =>
    rw [List.foldl_cons, ih]
    cases i with
    | copy | insert =>
      simp [DeltaTotals.add, List.countP_cons, List.filter_cons, Instruction.isCopy,
        Instruction.isInsert, Instruction.fileLength, Nat.add_assoc, Nat.add_comm 1]
    | close => simp [DeltaTotals.add, Instruction.isCopy, Instruction.isInsert]

theorem foldl_add_zero (is : List Instruction) :
    is.foldl DeltaTotals.add .zero =
      { copies := is.countP Instruction.isCopy
        inserts := is.countP Instruction.isInsert
        copied := builtLength (is.filter Instruction.isCopy)
        inserted := builtLength (is.filter Instruction.isInsert) } := by
  rw [foldl_add]
  simp only [DeltaTotals.zero, Nat.zero_add]

/-- What each instruction adds to a measure of the totals, all of them add. -/
theorem measure_foldl {f : DeltaTotals → Nat} {g : Instruction → Nat} {is : List Instruction}
    (h : ∀ i ∈ is, ∀ t, f (t.add i) = f t + g i) (t : DeltaTotals) :
    f (is.foldl DeltaTotals.add t) = f t + (is.map g).sum := by
  induction is generalizing t with
  | nil => rfl
  | cons i is ih =>
    rw [List.forall_mem_cons] at h
    rw [List.foldl_cons, ih h.2, h.1, List.map_cons, List.sum_cons, Nat.add_assoc]

/-- Copies and insertions build everything. -/
theorem total_foldl (is : List Instruction) (t : DeltaTotals) :
    (is.foldl DeltaTotals.add t).total = t.total + builtLength is := by
  refine measure_foldl (fun i _ t => ?_) t
  cases i with
  | copy | insert =>
    simp only [DeltaTotals.add, DeltaTotals.total, Instruction.fileLength]
    omega
  | close => rfl

/-- What instructions that add up to these totals take on the wire: a copy 13 bytes, an insertion 5
bytes and what it inserts. -/
def DeltaTotals.wireSize (t : DeltaTotals) : Nat := 13 * t.copies + 5 * t.inserts + t.inserted

theorem wireSize_foldl {is : List Instruction} (h : ∀ i ∈ is, i.Plain) (t : DeltaTotals) :
    (is.foldl DeltaTotals.add t).wireSize = t.wireSize + wireSize is := by
  refine measure_foldl (fun i hi t => ?_) t
  cases i with
  | copy | insert =>
    simp only [DeltaTotals.add, DeltaTotals.wireSize, Instruction.wireLength]
    omega
  | close => exact (h _ hi).sized.elim

/-! ## What the wire costs -/

theorem wireSize_insertion_le (run : Bytes) : wireSize (insertion run) ≤ 5 + run.length := by
  unfold insertion
  split
  · exact Nat.zero_le _
  · exact Nat.le_refl _

/-- Joining copies saves what they cost. -/
theorem wireSize_join_le (is : List Instruction) : wireSize (join is) ≤ wireSize is := by
  refine join_induction (P := fun is js => wireSize js ≤ wireSize is) (Nat.le_refl _) ?_ ?_ is
  · intro i is js h
    exact Nat.add_le_add_left h _
  · intro offset offset' length length' is js _ _ h
    simp only [wireSize_cons, Instruction.wireLength] at h ⊢
    omega

namespace Signature

variable {s : Signature}

/-- Behind a run, `n` bytes of the run and of the file take at most `n` bytes, five for each full
insertion and 17 at the end. -/
theorem wireSize_gather_le (hp : 18 ≤ s.blockLength) (file : Bytes) {run : Bytes}
    (hrun : run.length < insertLimit) :
    wireSize (gather run (s.advances file)) ≤
      run.length + file.length + 5 * ((run.length + file.length) / insertLimit) + 17 := by
  have hlimit : insertLimit = 32768 := rfl
  refine advances_induction (P := fun bs way => ∀ run : Bytes, run.length < insertLimit →
    wireSize (gather run way) ≤
      run.length + bs.length + 5 * ((run.length + bs.length) / insertLimit) + 17) (by omega)
    ?_ ?_ ?_ file run hrun
  · intro bs _ run _
    have hcost := wireSize_insertion_le run
    unfold lastAdvance
    split
    · rw [gather]
      omega
    · next hne =>
      -- a short copy costs more than it saves, but there is only one of them
      have hpos := List.length_pos_iff.mpr hne
      split
      · simp only [copied, gather, wireSize_append, wireSize_cons, Instruction.wireLength,
          insertion, if_true, wireSize_nil]
        simp only [insertion] at hcost
        omega
      · have htail := wireSize_insertion_le (run ++ bs)
        rw [List.length_append] at htail
        simp only [gather]
        omega
  · intro bs b hl _ ih run _
    have hcost := wireSize_insertion_le run
    have hrest := ih [] (by decide)
    rw [List.length_drop, List.length_nil, Nat.zero_add, hlimit] at hrest
    simp only [copied, gather, wireSize_append, wireSize_cons, Instruction.wireLength]
    rw [hlimit]
    omega
  · intro b bs _ _ ih run hrun
    have hlen : (run ++ [b]).length = run.length + 1 := by simp
    rw [gather, List.length_cons]
    split
    · have hrest := ih [] (by decide)
      rw [List.length_nil, Nat.zero_add, hlimit] at hrest
      rw [wireSize_cons, Instruction.wireLength, hlen, hlimit]
      omega
    · have hrest := ih (run ++ [b]) (by omega)
      have hsum : run.length + 1 + bs.length = run.length + (bs.length + 1) := by omega
      rw [hlen, hsum] at hrest
      exact hrest

/-- **Whatever the signature, the instructions of a file are hardly longer than the file.** -/
theorem wireSize_body_le (hs : s.params.Valid) (file : Bytes) :
    wireSize (s.body file) ≤ file.length + 5 * (file.length / insertLimit) + 17 := by
  have hgather := wireSize_gather_le (s := s) (Nat.le_trans (by decide) hs.le_blockLength) file
    (show ([] : Bytes).length < insertLimit by decide)
  rw [List.length_nil, Nat.zero_add] at hgather
  exact Nat.le_trans (wireSize_join_le _) hgather

theorem length_delta_eq (s : Signature) (file : Bytes) :
    (s.delta file).length = 4 + wireSize (s.instructions file) := by
  rw [delta, List.length_append, length_flatMap_encode]
  rfl

/-- The mark and the closing take 37 bytes. -/
theorem wireSize_instructions (s : Signature) (file : Bytes) :
    wireSize (s.instructions file) = wireSize (s.body file) + 33 := by
  rw [instructions, wireSize_append]
  rfl

theorem totals_instructions (s : Signature) (file : Bytes) :
    (s.instructions file).foldl DeltaTotals.add .zero = (s.body file).foldl DeltaTotals.add .zero := by
  rw [instructions, List.foldl_append]
  rfl

end Signature

end BlockSync
