import BlockSync.Proofs.Delta.Meaning

/-!
# Everything the basis has is copied

Nothing is assumed here about false matches: a window that is a block of the basis is copied, perhaps
from another block that the signature cannot tell from it.

* `marks`, `CopiedAt`: which bytes of a file are copied;
* `marks_body`: gathering and joining do not change that;
* `Signature.find?_of_mem`: the signature of a basis knows its blocks;
* **`Signature.copiedAt_body`**: a byte from which on a file has a whole block of the basis is copied;
* **`Signature.marks_body_flatten`**: a file made of blocks of the basis is copied entirely.
-/

namespace BlockSync

/-! ## Which bytes are copied -/

/-- The instruction is a copy. -/
def Instruction.isCopy : Instruction → Bool
  | copy _ _ => true
  | _ => false

/-- Of each byte that instructions build, whether it is copied. -/
def marks (is : List Instruction) : List Bool :=
  is.flatMap fun i => List.replicate i.fileLength i.isCopy

/-- Of each byte in a part of a file, whether it will be copied. -/
def Advance.marks : Advance → List Bool
  | block _ length => List.replicate length.toNat true
  | byte _ => [false]
  | tail bs => List.replicate bs.length false

/-- The byte at position `p` of what instructions build lies in a copy. -/
def CopiedAt (is : List Instruction) (p : Nat) : Prop :=
  ∃ before offset length after, is = before ++ .copy offset length :: after ∧
    builtLength before ≤ p ∧ p < builtLength before + length.toNat

@[simp] theorem marks_nil : marks [] = [] := rfl

@[simp] theorem marks_cons (i : Instruction) (is : List Instruction) :
    marks (i :: is) = List.replicate i.fileLength i.isCopy ++ marks is := rfl

theorem marks_append (is js : List Instruction) : marks (is ++ js) = marks is ++ marks js :=
  List.flatMap_append

theorem copiedAt_of_marks {is : List Instruction} {p : Nat} (h : (marks is)[p]? = some true) :
    CopiedAt is p := by
  induction is generalizing p with
  | nil => cases h
  | cons i is ih =>
    rw [marks_cons] at h
    rcases Nat.lt_or_ge p i.fileLength with hp | hp
    · rw [List.getElem?_append_left (by rwa [List.length_replicate]), List.getElem?_replicate,
        if_pos hp] at h
      cases i with
      | copy offset length => exact ⟨[], offset, length, is, rfl, Nat.zero_le _, by
          rwa [show builtLength [] = 0 from rfl, Nat.zero_add]⟩
      | insert | close => cases h
    · rw [List.getElem?_append_right (by rwa [List.length_replicate]), List.length_replicate] at h
      obtain ⟨before, offset, length, after, rfl, hle, hlt⟩ := ih h
      refine ⟨i :: before, offset, length, after, rfl, ?_, ?_⟩ <;> rw [builtLength_cons] <;> omega

theorem CopiedAt.append {is : List Instruction} {p : Nat} (h : CopiedAt is p)
    (js : List Instruction) : CopiedAt (is ++ js) p := by
  obtain ⟨before, offset, length, after, rfl, hp⟩ := h
  exact ⟨before, offset, length, after ++ js, List.append_assoc .., hp⟩

/-- The totals count the bytes of either kind. -/
theorem foldl_add_eq (is : List Instruction) (t : DeltaTotals) :
    (is.foldl DeltaTotals.add t).copied = t.copied + (marks is).count true ∧
      (is.foldl DeltaTotals.add t).inserted = t.inserted + (marks is).count false := by
  induction is generalizing t with
  | nil => exact ⟨rfl, rfl⟩
  | cons i is ih =>
    obtain ⟨hcopied, hinserted⟩ := ih (t.add i)
    rw [List.foldl_cons, hcopied, hinserted, marks_cons, List.count_append, List.count_append]
    cases i with
    | copy | insert =>
      simp [Instruction.fileLength, Instruction.isCopy, DeltaTotals.add, List.count_replicate,
        Nat.add_assoc]
    | close => simp [Instruction.fileLength, DeltaTotals.add]

theorem marks_join (is : List Instruction) : marks (join is) = marks is := by
  refine join_induction (P := fun is js => marks js = marks is) rfl ?_ ?_ is
  · intro i is js h
    rw [marks_cons, marks_cons, h]
  · intro offset offset' length length' is js _ hsum h
    rw [h, marks_cons, marks_cons, marks_cons, ← List.append_assoc]
    simp only [Instruction.fileLength, Instruction.isCopy, hsum, List.replicate_add]

theorem marks_insertion (run : Bytes) : marks (insertion run) = List.replicate run.length false := by
  unfold insertion
  split
  · next h => rw [h]; rfl
  · exact List.append_nil _

theorem marks_gather (run : Bytes) (way : List Advance) :
    marks (gather run way) = List.replicate run.length false ++ way.flatMap Advance.marks := by
  fun_induction gather run way with
  | case1 run => rw [marks_insertion, List.flatMap_nil, List.append_nil]
  | case2 run offset length way ih =>
    rw [marks_append, marks_insertion, marks_cons, ih, List.flatMap_cons]
    rfl
  | case3 run b way _ ih =>
    rw [marks_cons, ih, List.flatMap_cons, ← List.append_assoc]
    simp [Instruction.fileLength, Instruction.isCopy, Advance.marks, List.replicate_add]
  | case4 run b way _ ih =>
    rw [ih, List.flatMap_cons, ← List.append_assoc, List.length_append, List.replicate_add]
    rfl
  | case5 run bs way ih =>
    rw [ih, List.flatMap_cons, ← List.append_assoc, List.length_append, List.replicate_add]
    rfl

/-- What is copied of a file are the blocks along the way. -/
theorem marks_body (s : Signature) (file : Bytes) :
    marks (s.body file) = (s.advances file).flatMap Advance.marks := by
  rw [Signature.body, marks_join, marks_gather]
  rfl

/-! ## Blocks of a basis -/

/-- A file is made of its blocks, of which only what is left behind the whole ones may be shorter. -/
theorem exists_flatten_blocksOf {n : Nat} (hn : 0 < n) (bs : Bytes) :
    ∃ (blocks : List Bytes) (last : Bytes), bs = blocks.flatten ++ last ∧
      (∀ block ∈ blocks, block ∈ blocksOf n bs ∧ block.length = n) ∧
      (last = [] ∨ last ∈ blocksOf n bs ∧ last.length < n) := by
  fun_induction blocksOf n bs with
  | case1 => exact ⟨[], [], rfl, List.forall_mem_nil _, .inl rfl⟩
  | case2 b bs ih =>
    obtain ⟨blocks, last, hbs, hblocks, hlast⟩ := ih
    by_cases hfull : n - 1 ≤ bs.length
    · refine ⟨(b :: bs.take (n - 1)) :: blocks, last, ?_, ?_, ?_⟩
      · rw [List.flatten_cons, List.append_assoc, ← hbs, List.cons_append, List.take_append_drop]
      · refine List.forall_mem_cons.mpr ⟨⟨List.mem_cons_self .., ?_⟩, fun block hb => ?_⟩
        · rw [List.length_cons, List.length_take]
          omega
        · exact ⟨List.mem_cons_of_mem _ (hblocks block hb).1, (hblocks block hb).2⟩
      · exact hlast.imp_right fun h => ⟨List.mem_cons_of_mem _ h.1, h.2⟩
    · refine ⟨[], b :: bs, rfl, List.forall_mem_nil _, .inr ⟨?_, by rw [List.length_cons]; omega⟩⟩
      rw [List.take_of_length_le (by omega)]
      exact List.mem_cons_self ..

namespace Signature

variable {s : Signature} {p : Params} {basis : Bytes}

/-- The signature of a basis knows the blocks of the basis. -/
theorem find?_of_mem (hp : p.Valid) (h : ofBytes p basis = .ok s) {block : Bytes}
    (hb : block ∈ blocksOf p.blockLength.toNat basis) : s.find? block ≠ none := by
  obtain ⟨s', hs', rfl, hblocks⟩ := ofBytes_spec hp basis
  obtain rfl : s = s' := Except.ok.inj (h.symm.trans hs')
  obtain ⟨i, hi, rfl⟩ := List.mem_iff_getElem.mp hb
  intro hnone
  refine List.find?_eq_none.mp hnone _ (hblocks ▸ List.mem_mapIdx.mpr ⟨i, hi, rfl⟩) ?_
  simp only [BlockSum.ofBytes, Digest.agrees, Digest.initial_ofInitial, beq_self_eq_true,
      Bool.and_self]

/-! ## What is copied of a file -/

theorem marks_copied (b : BlockSum) {n : Nat} (h : n < UInt32.size) :
    (s.copied b n).marks = List.replicate n true := by
  rw [copied, Advance.marks, UInt32.toNat_ofNat_of_lt' h]

/-- Every byte at which a window starts that agrees with a block is copied: it is the first one of a
block, or lies in the block before. -/
theorem marks_advances (hp : 0 < s.blockLength) {file : Bytes} {i : Nat}
    (hi : i + s.blockLength ≤ file.length)
    (hf : s.find? ((file.drop i).take s.blockLength) ≠ none) :
    ((s.advances file).flatMap Advance.marks)[i]? = some true := by
  refine advances_induction (P := fun bs way => ∀ i, i + s.blockLength ≤ bs.length →
    s.find? ((bs.drop i).take s.blockLength) ≠ none → (way.flatMap Advance.marks)[i]? = some true)
    hp ?_ ?_ ?_ file i hi hf
  · intro bs hl i hi
    omega
  · intro bs b hl _ ih i hi hf
    rw [List.flatMap_cons, marks_copied b s.blockLength_lt]
    rcases Nat.lt_or_ge i s.blockLength with hlt | hge
    · rw [List.getElem?_append_left (by rwa [List.length_replicate]), List.getElem?_replicate,
        if_pos hlt]
    · rw [List.getElem?_append_right (by rwa [List.length_replicate]), List.length_replicate]
      refine ih _ (by rw [List.length_drop]; omega) ?_
      rwa [List.drop_drop, Nat.add_sub_cancel' hge]
  · intro b bs _ hnone ih i hi hf
    cases i with
    | zero => exact absurd hnone hf
    | succ i =>
      rw [List.flatMap_cons]
      refine ih i ?_ hf
      rw [List.length_cons] at hi
      omega

/-- **A byte from which on a file has a whole block of the basis is copied.** -/
theorem copiedAt_body (hp : p.Valid) (h : ofBytes p basis = .ok s) {file : Bytes} {i : Nat}
    (hi : i + p.blockLength.toNat ≤ file.length)
    (hb : (file.drop i).take p.blockLength.toNat ∈ blocksOf p.blockLength.toNat basis) :
    CopiedAt (s.body file) i := by
  have hf := find?_of_mem hp h hb
  obtain ⟨s', hs', rfl, -⟩ := ofBytes_spec hp basis
  obtain rfl : s = s' := Except.ok.inj (h.symm.trans hs')
  apply copiedAt_of_marks
  rw [marks_body]
  exact marks_advances (blockLength_pos hp) hi hf

/-- Along blocks that the signature knows there are no bytes between the blocks. -/
theorem marks_advances_flatten (hp : 0 < s.blockLength) {blocks : List Bytes} {last : Bytes}
    (hblocks : ∀ block ∈ blocks, block.length = s.blockLength ∧ s.find? block ≠ none)
    (hlast : last = [] ∨ last.length < s.blockLength ∧ s.find? last ≠ none) :
    (s.advances (blocks.flatten ++ last)).flatMap Advance.marks =
      List.replicate (blocks.flatten ++ last).length true := by
  have hlt := s.blockLength_lt
  induction blocks with
  | nil =>
    rw [List.flatten_nil, List.nil_append]
    rcases hlast with rfl | ⟨hl, hf⟩
    · rw [advances]
      rfl
    · rw [advances_of_lt hl, lastAdvance]
      split
      · next hnil => rw [hnil]; rfl
      · split
        · rw [List.flatMap_singleton, marks_copied _ (Nat.lt_trans hl hlt)]
        · next hnone => exact absurd hnone hf
  | cons block blocks ih =>
    rw [List.forall_mem_cons] at hblocks
    obtain ⟨⟨hl, hf⟩, hblocks⟩ := hblocks
    obtain ⟨b, hb⟩ := Option.ne_none_iff_exists'.mp hf
    have hlen : (block ++ (blocks.flatten ++ last)).length =
        s.blockLength + (blocks.flatten ++ last).length := by rw [List.length_append, hl]
    rw [List.flatten_cons, List.append_assoc,
      advances_of_some hp (by omega) (by rwa [List.take_left' hl]), List.drop_left' hl,
      List.flatMap_cons, ih hblocks, marks_copied b hlt, hlen, List.replicate_add]

/-- **A file made of blocks of the basis, the short last one at the end if at all, is copied
entirely.** -/
theorem marks_body_flatten (hp : p.Valid) (h : ofBytes p basis = .ok s) {blocks : List Bytes}
    {last : Bytes} (hblocks : ∀ block ∈ blocks,
      block ∈ blocksOf p.blockLength.toNat basis ∧ block.length = p.blockLength.toNat)
    (hlast : last = [] ∨
      last ∈ blocksOf p.blockLength.toNat basis ∧ last.length < p.blockLength.toNat) :
    marks (s.body (blocks.flatten ++ last)) =
      List.replicate (blocks.flatten ++ last).length true := by
  have hfind : ∀ {block}, block ∈ blocksOf p.blockLength.toNat basis → s.find? block ≠ none :=
    find?_of_mem hp h
  obtain ⟨s', hs', rfl, -⟩ := ofBytes_spec hp basis
  obtain rfl : s = s' := Except.ok.inj (h.symm.trans hs')
  rw [marks_body]
  exact marks_advances_flatten (blockLength_pos hp)
    (fun block hb => ⟨(hblocks block hb).2, hfind (hblocks block hb).1⟩)
    (hlast.imp_right fun hl => ⟨hl.2, hfind hl.1⟩)

/-- What the instructions of a file add up to when all of it is copied. -/
theorem totals_of_marks {file : Bytes}
    (h : marks (s.body file) = List.replicate file.length true) :
    ((s.instructions file).foldl DeltaTotals.add .zero).inserted = 0 ∧
      ((s.instructions file).foldl DeltaTotals.add .zero).copied = file.length := by
  obtain ⟨hcopied, hinserted⟩ := foldl_add_eq (s.instructions file) .zero
  have hmarks : marks (s.instructions file) = List.replicate file.length true := by
    rw [instructions, marks_append, h]
    exact List.append_nil _
  rw [hmarks] at hcopied hinserted
  rw [hcopied, hinserted]
  simp [DeltaTotals.zero, List.count_replicate]

end Signature

end BlockSync
