import BlockSync.Proofs.Delta.Meaning

/-!
# The instructions of a delta

A byte string consists of at most one sequence of instructions, and those of the delta of a file have
a normal form.

* `Instruction.Writable`, `ConsistsOf`, **`ConsistsOf.unique`**: the instructions of a byte string;
* `Tiles`: instructions are laid along a file, and what is inserted is what the file has there;
* `Instruction.MayPrecede`: two copies that follow each other could not be one, and an insertion that
  follows another one follows a full one;
* **`Signature.tiles_body`**, **`Signature.isChain_body`**: the instructions of a file are laid along
  it, each of them may precede the next.
-/

namespace BlockSync

/-! ## The instructions of a byte string -/

/-- The length of an insertion can be written. -/
def Instruction.Writable : Instruction → Prop
  | insert bs => bs.length < UInt32.size
  | _ => True

theorem Instruction.Sized.writable {i : Instruction} (h : i.Sized) : i.Writable := by
  cases i with
  | copy => trivial
  | insert => exact h
  | close => trivial

/-- The byte string is the mark and instructions. -/
def ConsistsOf (delta : Bytes) (is : List Instruction) : Prop :=
  (∀ i ∈ is, i.Writable) ∧ delta = deltaMark ++ is.flatMap Instruction.encode

namespace Instruction

/-- What is written at the front of a byte string is one instruction only. -/
theorem encode_append_inj {i j : Instruction} (hi : i.Writable) (hj : j.Writable) {bs cs : Bytes}
    (h : i.encode ++ bs = j.encode ++ cs) : i = j ∧ bs = cs := by
  cases i with
  | copy o l =>
    cases j with
    | copy o' l' =>
      simp only [encode, List.cons_append, List.append_assoc, List.cons.injEq, true_and] at h
      obtain ⟨ho, h⟩ := List.append_inj h (by simp only [BigEndian.length_encode])
      obtain ⟨hl, rfl⟩ := List.append_inj h (by simp only [BigEndian.length_encode])
      have ho' : o.toNat = o'.toNat := BigEndian.encode_inj o.toNat_lt o'.toNat_lt ho
      have hl' : l.toNat = l'.toNat := BigEndian.encode_inj l.toNat_lt l'.toNat_lt hl
      rw [UInt64.toNat_inj.mp ho', UInt32.toNat_inj.mp hl']
      exact ⟨rfl, rfl⟩
    | insert | close => exact absurd (List.cons.inj h).1 (by decide)
  | insert xs =>
    cases j with
    | insert ys =>
      simp only [encode, List.cons_append, List.append_assoc, List.cons.injEq, true_and] at h
      obtain ⟨hl, h⟩ := List.append_inj h (by simp only [BigEndian.length_encode])
      have hl' : xs.length = ys.length := BigEndian.encode_inj hi hj hl
      obtain ⟨rfl, rfl⟩ := List.append_inj h hl'
      exact ⟨rfl, rfl⟩
    | copy | close => exact absurd (List.cons.inj h).1 (by decide)
  | close d =>
    cases j with
    | close d' =>
      simp only [encode, List.cons_append, List.cons.injEq, true_and] at h
      obtain ⟨hd, rfl⟩ := List.append_inj h (d.length_bytes.trans d'.length_bytes.symm)
      have hd' : d = d' := by rw [← Digest.ofInitial_bytes d, hd, Digest.ofInitial_bytes]
      rw [hd']
      exact ⟨rfl, rfl⟩
    | copy | insert => exact absurd (List.cons.inj h).1 (by decide)

theorem encode_ne_nil (i : Instruction) : i.encode ≠ [] := by
  cases i <;> exact List.cons_ne_nil _ _

end Instruction

theorem flatMap_encode_inj {is js : List Instruction} (hi : ∀ i ∈ is, i.Writable)
    (hj : ∀ j ∈ js, j.Writable)
    (h : is.flatMap Instruction.encode = js.flatMap Instruction.encode) : is = js := by
  induction is generalizing js with
  | nil =>
    cases js with
    | nil => rfl
    | cons j js => exact absurd (List.append_eq_nil_iff.mp h.symm).1 j.encode_ne_nil
  | cons i is ih =>
    cases js with
    | nil => exact absurd (List.append_eq_nil_iff.mp h).1 i.encode_ne_nil
    | cons j js =>
      rw [List.forall_mem_cons] at hi hj
      rw [List.flatMap_cons, List.flatMap_cons] at h
      obtain ⟨rfl, h'⟩ := Instruction.encode_append_inj hi.1 hj.1 h
      rw [ih hi.2 hj.2 h']

/-- **A byte string consists of at most one sequence of instructions.** -/
theorem ConsistsOf.unique {delta : Bytes} {is js : List Instruction} (hi : ConsistsOf delta is)
    (hj : ConsistsOf delta js) : is = js :=
  flatMap_encode_inj hi.1 hj.1 (List.append_cancel_left (hi.2.symm.trans hj.2))

/-! ## Along a file -/

/-- The instructions are laid along a file: each makes the bytes that come next, and an insertion
holds them. -/
inductive Tiles : List Instruction → Bytes → Prop
  | nil : Tiles [] []
  | copy {offset : UInt64} {length : UInt32} {part rest : Bytes} {is : List Instruction} :
      part.length = length.toNat → Tiles is rest → Tiles (.copy offset length :: is) (part ++ rest)
  | insert {part rest : Bytes} {is : List Instruction} :
      Tiles is rest → Tiles (.insert part :: is) (part ++ rest)

namespace Tiles

variable {is : List Instruction} {run bs : Bytes}

theorem insertion (h : Tiles is bs) : Tiles (BlockSync.insertion run ++ is) (run ++ bs) := by
  unfold BlockSync.insertion
  split
  · next hrun => rwa [hrun]
  · exact .insert h

theorem of_insertion (run : Bytes) : Tiles (BlockSync.insertion run) run := by
  have h : Tiles (BlockSync.insertion run ++ []) (run ++ []) := Tiles.nil.insertion
  rwa [List.append_nil, List.append_nil] at h

theorem copy_front {offset : UInt64} {length : UInt32} {n : Nat} (hn : n = length.toNat)
    (hl : n ≤ bs.length) (h : Tiles is (bs.drop n)) : Tiles (.copy offset length :: is) bs := by
  rw [← List.take_append_drop n bs]
  exact .copy (by rw [List.length_take]; omega) h

theorem join (h : Tiles is bs) : Tiles (BlockSync.join is) bs := by
  refine join_induction (P := fun is js => ∀ bs, Tiles is bs → Tiles js bs) ?_ ?_ ?_ is bs h
  · exact fun _ => id
  · intro i is js ih bs h
    cases h with
    | copy hl h => exact .copy hl (ih _ h)
    | insert h => exact .insert (ih _ h)
  · intro offset offset' length length' is js _ hsum ih bs h
    cases h with
    | @copy _ _ part _ _ hl h =>
      cases h with
      | @copy _ _ part' rest _ hl' h =>
        refine ih _ (List.append_assoc part part' rest ▸ .copy ?_ h)
        rw [List.length_append, hl, hl', hsum]

end Tiles

/-! ## Side by side -/

/-- Two instructions may follow each other: two copies that could not be one, and an insertion behind
a full one. -/
def Instruction.MayPrecede : Instruction → Instruction → Prop
  | copy offset length, copy offset' length' =>
    ¬ (offset.toNat + length.toNat = offset'.toNat ∧
      length.toNat + length'.toNat < UInt32.size)
  | insert bs, insert _ => bs.length = insertLimit
  | _, _ => True

/-- Two instructions may follow each other before copies are joined. -/
def Instruction.MayPrecedeUnjoined : Instruction → Instruction → Prop
  | insert bs, insert _ => bs.length = insertLimit
  | _, _ => True

/-- The instruction begins another one, which copies on or is the same. -/
def Instruction.Begins : Instruction → Instruction → Prop
  | copy offset length, copy offset' length' => offset = offset' ∧ length.toNat ≤ length'.toNat
  | i, j => i = j

namespace Instruction

variable {i j k : Instruction}

theorem Begins.refl (i : Instruction) : i.Begins i := by
  cases i with
  | copy => exact ⟨rfl, Nat.le_refl _⟩
  | insert => rfl
  | close => rfl

theorem MayPrecede.begins (h : i.MayPrecede j) (hb : j.Begins k) : i.MayPrecede k := by
  cases j with
  | copy offset length =>
    cases k with
    | copy offset' length' =>
      obtain ⟨rfl, hle⟩ := hb
      cases i with
      | copy offset₀ length₀ => exact fun hk => h ⟨hk.1, by omega⟩
      | insert => trivial
      | close => trivial
    | insert => cases hb
    | close => cases hb
  | insert => cases hb; exact h
  | close => cases hb; exact h

end Instruction

theorem begins_join (is : List Instruction) :
    ∀ j ∈ (join is).head?, ∃ i ∈ is.head?, i.Begins j := by
  refine join_induction (P := fun is js => ∀ j ∈ js.head?, ∃ i ∈ is.head?, i.Begins j) nofun ?_ ?_ is
  · intro i is js _ j hj
    obtain rfl : i = j := Option.some.inj hj
    exact ⟨i, rfl, .refl i⟩
  · intro offset offset' length length' is js _ hsum ih j hj
    obtain ⟨i, hi, hb⟩ := ih j hj
    obtain rfl := Option.some.inj hi
    refine ⟨_, rfl, ?_⟩
    cases j with
    | copy => exact ⟨hb.1, by have := hb.2; omega⟩
    | insert => cases hb
    | close => cases hb

theorem isChain_insertion (run : Bytes) :
    (insertion run).IsChain Instruction.MayPrecedeUnjoined := by
  unfold insertion
  split
  · exact .nil
  · exact .singleton _

theorem isChain_insertion_copy (run : Bytes) {offset : UInt64} {length : UInt32}
    {is : List Instruction} (h : is.IsChain Instruction.MayPrecedeUnjoined) :
    (insertion run ++ .copy offset length :: is).IsChain Instruction.MayPrecedeUnjoined := by
  have hcopy : (Instruction.copy offset length :: is).IsChain Instruction.MayPrecedeUnjoined :=
    List.isChain_cons.mpr ⟨fun _ _ => trivial, h⟩
  unfold insertion
  split
  · exact hcopy
  · exact hcopy.cons_cons trivial

/-- Joining leaves no two copies side by side that could be one. -/
theorem isChain_join {is : List Instruction} (h : is.IsChain Instruction.MayPrecedeUnjoined) :
    (join is).IsChain Instruction.MayPrecede := by
  fun_induction join is with
  | case1 offset length offset' length' is hm ih =>
    rw [List.isChain_cons_cons, List.isChain_cons] at h
    exact ih (List.isChain_cons.mpr ⟨fun _ _ => trivial, h.2.2⟩)
  | case2 offset length offset' length' is hm ih =>
    rw [List.isChain_cons_cons] at h
    refine List.isChain_cons.mpr ⟨fun k hk => ?_, ih h.2⟩
    -- what has become of the second copy starts where it did and is no shorter
    obtain ⟨j, hj, hb⟩ := begins_join _ k hk
    obtain rfl := Option.some.inj hj
    exact Instruction.MayPrecede.begins (j := .copy offset' length') hm hb
  | case3 i is hne ih =>
    rw [List.isChain_cons] at h
    refine List.isChain_cons.mpr ⟨fun k hk => ?_, ih h.2⟩
    obtain ⟨j, hj, hb⟩ := begins_join _ k hk
    refine Instruction.MayPrecede.begins ?_ hb
    have hij := h.1 j hj
    cases i with
    | copy offset length =>
      cases j with
      | copy offset' length' =>
        obtain ⟨rest, rfl⟩ := List.head?_eq_some_iff.mp hj
        exact (hne offset length offset' length' rest rfl rfl).elim
      | insert | close => trivial
    | insert =>
      cases j with
      | insert => exact hij
      | copy | close => trivial
    | close => trivial
  | case4 => exact .nil

/-! ## The instructions of a file -/

namespace Signature

variable {s : Signature}

theorem tiles_gather_advances (hp : 0 < s.blockLength) (run file : Bytes) :
    Tiles (gather run (s.advances file)) (run ++ file) := by
  have hlt := s.blockLength_lt
  refine advances_induction (P := fun bs way => ∀ run, Tiles (gather run way) (run ++ bs)) hp
    ?_ ?_ ?_ file run
  · intro bs hl run
    unfold lastAdvance
    split
    · next hnil => rw [hnil, List.append_nil]; exact .of_insertion run
    · split
      · have hlen : bs.length = (UInt32.ofNat bs.length).toNat :=
          (UInt32.toNat_ofNat_of_lt' (Nat.lt_trans hl hlt)).symm
        refine .insertion (.copy_front hlen (Nat.le_refl _) ?_)
        rw [List.drop_length]
        exact .nil
      · exact .of_insertion (run ++ bs)
  · intro bs b hl _ ih run
    exact .insertion (.copy_front (UInt32.toNat_ofNat_of_lt' hlt).symm hl (ih []))
  · intro b bs _ _ ih run
    rw [gather, List.append_cons run b bs]
    split
    · exact .insert (ih [])
    · exact ih (run ++ [b])

/-- A run is full when something but a copy follows what is inserted. -/
theorem isChain_gather_advances (hp : 0 < s.blockLength) (file : Bytes) {run : Bytes}
    (hrun : run.length < insertLimit) :
    (gather run (s.advances file)).IsChain Instruction.MayPrecedeUnjoined := by
  refine advances_induction (P := fun _ way => ∀ run : Bytes, run.length < insertLimit →
    (gather run way).IsChain Instruction.MayPrecedeUnjoined) hp ?_ ?_ ?_ file run hrun
  · intro bs _ run _
    unfold lastAdvance
    split
    · exact isChain_insertion run
    · split
      · exact isChain_insertion_copy run .nil
      · exact isChain_insertion (run ++ bs)
  · intro bs b _ _ ih run _
    exact isChain_insertion_copy run (ih [] (by decide))
  · intro b bs _ _ ih run hrun
    have hlen : (run ++ [b]).length = run.length + 1 := by simp
    rw [gather]
    split
    · refine List.isChain_cons.mpr ⟨fun j _ => ?_, ih [] (by decide)⟩
      cases j with
      | insert => exact (by omega : (run ++ [b]).length = insertLimit)
      | copy | close => trivial
    · exact ih (run ++ [b]) (by omega)

/-- **The instructions of a file are laid along it.** -/
theorem tiles_body (hs : s.params.Valid) (file : Bytes) : Tiles (s.body file) file :=
  (tiles_gather_advances (blockLength_pos hs) [] file).join

/-- **No copy of a file could be made one with the next, and no insertion but a full one is followed
by another.** -/
theorem isChain_body (hs : s.params.Valid) (file : Bytes) :
    (s.body file).IsChain Instruction.MayPrecede :=
  isChain_join (isChain_gather_advances (blockLength_pos hs) file (by decide))

/-- The delta of a file consists of its instructions. -/
theorem consistsOf_delta (hs : s.params.Valid) (file : Bytes) :
    ConsistsOf (s.delta file) (s.instructions file) := by
  refine ⟨fun i hi => ?_, rfl⟩
  rcases List.mem_append.mp hi with hi | hi
  · exact (s.plain_body hs file i hi).sized.writable
  · obtain rfl := List.mem_singleton.mp hi
    trivial

/-- And of no others. -/
theorem consistsOf_delta_iff (hs : s.params.Valid) (file : Bytes) (js : List Instruction) :
    ConsistsOf (s.delta file) js ↔ js = s.instructions file := by
  refine ⟨fun h => h.unique (s.consistsOf_delta hs file), ?_⟩
  rintro rfl
  exact s.consistsOf_delta hs file

end Signature

end BlockSync
