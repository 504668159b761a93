import BlockSync.Proofs.Delta.NormalForm

/-!
# How long insertions become

While a window moves along a file its run is cut at the limit. What is left of the file at the end is
shorter than a block and joins the run that is held back, which is not cut any more.

* `lastInsertion`: the length of the insertion that ends a delta, from the number of bytes inserted
  since the last copy;
* `loose`: that number;
* `Cut`: the insertions of a delta are as long as that;
* **`Signature.cut_body`**: those of the delta of a file are;
* `Signature.length_insert`, `Signature.inserts_le_iff`: only the last of them may exceed the limit;
* `Signature.exists_overlong`: in the delta of a file that the signature does not know it does, where
  enough of the file is left.
-/

namespace BlockSync

/-- The length of the insertion that ends a delta, of `n` bytes inserted since the last copy. If there
was a window, the last one leaves a block's length less one byte behind it, and the bytes before that
are cut at the limit. -/
def lastInsertion (block n : Nat) : Nat :=
  if n < block then n else (n - (block - 1)) % insertLimit + (block - 1)

/-- The number of bytes inserted since the last copy, if there were `n` of them before. -/
def loose (n : Nat) : List Instruction → Nat
  | [] => n
  | .copy _ _ :: is => loose 0 is
  | .insert bs :: is => loose (n + bs.length) is
  | .close _ :: is => loose n is

/-- An insertion keeps the limit unless it is the last instruction, which takes what is left. -/
def Cut (block : Nat) : Nat → List Instruction → Prop
  | _, [] => True
  | _, .copy _ _ :: is => Cut block 0 is
  | n, .insert bs :: is =>
    (is ≠ [] → bs.length ≤ insertLimit) ∧
      (is = [] → bs.length = lastInsertion block (n + bs.length)) ∧ Cut block (n + bs.length) is
  | n, .close _ :: is => Cut block n is

theorem lastInsertion_lt (block n : Nat) :
    lastInsertion block n < insertLimit + (block - 1) := by
  have hlimit : 0 < insertLimit := by decide
  have hmod : (n - (block - 1)) % insertLimit < insertLimit := Nat.mod_lt _ hlimit
  unfold lastInsertion
  split <;> omega

/-! ## Parts of a delta -/

section Cut

variable {block n : Nat} {is : List Instruction}

theorem loose_append (n : Nat) (is js : List Instruction) :
    loose n (is ++ js) = loose (loose n is) js := by
  induction is generalizing n with
  | nil => rfl
  | cons i is ih => cases i <;> exact ih _

theorem Cut.of_append {before : List Instruction} (h : Cut block n (before ++ is)) :
    Cut block (loose n before) is := by
  induction before generalizing n with
  | nil => exact h
  | cons i before ih =>
    cases i with
    | copy => exact ih h
    | insert => exact ih h.2.2
    | close => exact ih h

/-- What is inserted before something else keeps the limit. -/
theorem Cut.length_le {before after : List Instruction} {bs : Bytes}
    (h : Cut block n (before ++ .insert bs :: after)) (hne : after ≠ []) : bs.length ≤ insertLimit :=
  h.of_append.1 hne

/-- What is inserted last is what is left. -/
theorem Cut.length_eq {before : List Instruction} {bs : Bytes}
    (h : Cut block n (before ++ [.insert bs])) :
    bs.length = lastInsertion block (loose n (before ++ [.insert bs])) := by
  rw [loose_append]
  exact h.of_append.2.1 rfl

theorem Cut.insertion_copy {offset : UInt64} {length : UInt32} {run : Bytes}
    (hrun : run.length < insertLimit) (h : Cut block 0 is) :
    Cut block n (insertion run ++ .copy offset length :: is) := by
  unfold insertion
  split
  · exact h
  · exact ⟨fun _ => Nat.le_of_lt hrun, fun hnil => (List.cons_ne_nil _ _ hnil).elim, h⟩

theorem loose_join (n : Nat) (is : List Instruction) : loose n (join is) = loose n is := by
  refine join_induction (P := fun is js => ∀ n, loose n js = loose n is) (fun _ => rfl) ?_ ?_ is n
  · intro i is js h n
    cases i <;> exact h _
  · intro offset offset' length length' is js _ _ h n
    exact h n

/-- Behind insertions only, everything is loose. -/
theorem loose_of_inserts {is : List Instruction} (h : ∀ i ∈ is, ∃ bs, i = .insert bs) (n : Nat) :
    loose n (join is) = n + builtLength is := by
  rw [loose_join]
  induction is generalizing n with
  | nil => rfl
  | cons i is ih =>
    rw [List.forall_mem_cons] at h
    obtain ⟨⟨bs, rfl⟩, h⟩ := h
    rw [loose, ih h, builtLength_cons, ← Nat.add_assoc]
    rfl

theorem Cut.join (h : Cut block n is) : Cut block n (BlockSync.join is) := by
  refine (join_induction (P := fun is js => (js = [] ↔ is = []) ∧ ∀ n, Cut block n is → Cut block n js)
    ⟨Iff.rfl, fun _ => id⟩ ?_ ?_ is).2 n h
  · rintro i is js ⟨hnil, ih⟩
    refine ⟨by simp only [reduceCtorEq], fun n h => ?_⟩
    cases i with
    | copy => exact ih _ h
    | insert bs =>
      exact ⟨fun hne => h.1 (mt hnil.mpr hne), fun he => h.2.1 (hnil.mp he), ih _ h.2.2⟩
    | close => exact ih _ h
  · rintro offset offset' length length' is js - - ⟨hnil, ih⟩
    exact ⟨by simpa only [reduceCtorEq] using hnil, fun n h => ih n h⟩

end Cut

/-! ## The delta of a file -/

namespace Signature

variable {s : Signature}

theorem gather_advances_ne_nil (hp : 0 < s.blockLength) {file : Bytes} (h : file ≠ []) :
    gather [] (s.advances file) ≠ [] := by
  intro hnil
  have hlength := builtLength_gather [] (s.advances file)
  rw [hnil, fileLength_advances hp, List.length_nil, Nat.zero_add] at hlength
  exact h (List.length_eq_zero_iff.mp hlength.symm)

/-- Behind `q` full insertions and a run. Once a byte has been passed over, the window has been as long
as a block, and so what is left falls short of it by one byte at most. -/
theorem cut_gather_advances (hp : 2 ≤ s.blockLength) (file : Bytes) {run : Bytes} {q : Nat}
    (hrun : run.length < insertLimit)
    (hleft : 0 < q * insertLimit + run.length → s.blockLength - 1 ≤ file.length) :
    Cut s.blockLength (q * insertLimit) (gather run (s.advances file)) := by
  refine advances_induction (P := fun bs way => ∀ (run : Bytes) (q : Nat), run.length < insertLimit →
    (0 < q * insertLimit + run.length → s.blockLength - 1 ≤ bs.length) →
    Cut s.blockLength (q * insertLimit) (gather run way)) (by omega) ?_ ?_ ?_ file run q hrun hleft
  · intro bs hl run q hrun hleft
    unfold lastAdvance
    split
    · next hnil =>
      -- with nothing left, nothing has been passed over
      rw [hnil, List.length_nil] at hleft
      have hempty : run = [] := List.length_eq_zero_iff.mp (by omega)
      rw [gather, insertion, if_pos hempty]
      trivial
    · next hne =>
      split
      · exact Cut.insertion_copy hrun trivial
      · have hrest : run ++ bs ≠ [] := fun h => hne (List.append_eq_nil_iff.mp h).2
        rw [gather, gather, insertion, if_neg hrest]
        refine ⟨fun h => absurd rfl h, fun _ => ?_, trivial⟩
        rw [List.length_append, lastInsertion]
        split
        · next hshort =>
          have hnone : ¬ 0 < q * insertLimit + run.length := fun h => by
            have := hleft h
            omega
          omega
        · next hlong =>
          have hfull : bs.length = s.blockLength - 1 := by
            have := hleft (by omega)
            omega
          have hpassed : q * insertLimit + (run.length + bs.length) - (s.blockLength - 1) =
              run.length + insertLimit * q := by
            rw [hfull, Nat.mul_comm]
            omega
          rw [hpassed, Nat.add_mul_mod_self_left, Nat.mod_eq_of_lt hrun, hfull]
  · intro bs b _ _ ih run q hrun _
    have hrest := ih [] 0 (by decide) (by simp)
    rw [Nat.zero_mul] at hrest
    exact Cut.insertion_copy hrun hrest
  · intro b bs hl _ ih run q hrun _
    have hlen : (run ++ [b]).length = run.length + 1 := by simp
    rw [gather]
    split
    · next hfull =>
      have hlimit : (run ++ [b]).length = insertLimit := by omega
      have hbs : bs ≠ [] := fun h => by
        rw [h, List.length_nil] at hl
        omega
      have hrest := ih [] (q + 1) (by decide) fun _ => by omega
      rw [Nat.succ_mul] at hrest
      refine ⟨fun _ => Nat.le_of_eq hlimit, fun hnil => ?_, ?_⟩
      · exact absurd hnil (gather_advances_ne_nil (by omega) hbs)
      · rw [hlimit]
        exact hrest
    · exact ih (run ++ [b]) q (by omega) fun _ => by omega

/-- **The insertions of the delta of a file keep the limit, but for one at its end.** -/
theorem cut_body (hs : s.params.Valid) (file : Bytes) : Cut s.blockLength 0 (s.body file) := by
  have hgather : Cut s.blockLength (0 * insertLimit) (gather [] (s.advances file)) :=
    cut_gather_advances (Nat.le_trans (by decide) hs.le_blockLength) file (by decide) (by simp)
  rw [Nat.zero_mul] at hgather
  exact hgather.join

/-- What is inserted behind everything else is what is left, and what is inserted before keeps the
limit. -/
theorem length_insert (hs : s.params.Valid) (file : Bytes) {before after : List Instruction}
    {bs : Bytes} (h : s.body file = before ++ .insert bs :: after) :
    (after ≠ [] → bs.length ≤ insertLimit) ∧
      (after = [] → bs.length = lastInsertion s.blockLength (loose 0 (s.body file))) := by
  have hcut := s.cut_body hs file
  rw [h] at hcut ⊢
  refine ⟨hcut.length_le, ?_⟩
  rintro rfl
  exact hcut.length_eq

theorem length_insert_lt (hs : s.params.Valid) (file : Bytes) {bs : Bytes}
    (h : .insert bs ∈ s.body file) : bs.length < insertLimit + (s.blockLength - 1) := by
  obtain ⟨before, after, hbody⟩ := List.append_of_mem h
  obtain ⟨hle, heq⟩ := length_insert hs file hbody
  by_cases hafter : after = []
  · rw [heq hafter]
    exact lastInsertion_lt ..
  · have hblock := hs.le_blockLength
    have := hle hafter
    change 64 ≤ s.blockLength at hblock
    omega

/-- All insertions of a file keep the limit just when what is left at the end does. -/
theorem inserts_le_iff (hs : s.params.Valid) (file : Bytes) :
    (∀ bs, .insert bs ∈ s.body file → bs.length ≤ insertLimit) ↔
      lastInsertion s.blockLength (loose 0 (s.body file)) ≤ insertLimit := by
  rcases List.eq_nil_or_concat' (s.body file) with hnil | ⟨before, i, hbody⟩
  · have hzero : lastInsertion s.blockLength (loose 0 (s.body file)) = 0 := by
      rw [hnil, loose, lastInsertion, if_pos (blockLength_pos hs)]
    rw [hzero, hnil]
    exact ⟨fun _ => Nat.zero_le _, fun _ bs hmem => absurd hmem List.not_mem_nil⟩
  cases i with
  | copy offset length =>
    have hzero : lastInsertion s.blockLength (loose 0 (s.body file)) = 0 := by
      rw [hbody, loose_append, loose, loose, lastInsertion, if_pos (blockLength_pos hs)]
    rw [hzero]
    refine ⟨fun _ => Nat.zero_le _, fun _ bs hmem => ?_⟩
    obtain ⟨before', after, hbody'⟩ := List.append_of_mem hmem
    refine (length_insert hs file hbody').1 fun hafter => ?_
    -- the last instruction is a copy
    rw [hbody, hafter] at hbody'
    cases (List.append_inj' hbody' rfl).2
  | insert bs =>
    have hlast := (length_insert hs file hbody).2 rfl
    rw [← hlast]
    refine ⟨fun h => h bs (by simp [hbody]), fun h bs' hmem => ?_⟩
    obtain ⟨before', after, hbody'⟩ := List.append_of_mem hmem
    obtain ⟨hle, heq⟩ := length_insert hs file hbody'
    by_cases hafter : after = []
    · rw [heq hafter, ← hlast]
      exact h
    · exact hle hafter
  | close checksum =>
    have hmem : .close checksum ∈ s.body file := by simp [hbody]
    exact (s.plain_body hs file _ hmem).sized.elim

/-! ## A file that the signature does not know -/

theorem isInsert_gather (h : ∀ bs, s.find? bs = none) (hp : 0 < s.blockLength) (file run : Bytes) :
    ∀ i ∈ gather run (s.advances file), ∃ bs, i = .insert bs := by
  have hinsertion : ∀ run : Bytes, ∀ i ∈ insertion run, ∃ bs, i = .insert bs := fun run i hi => by
    unfold insertion at hi
    split at hi
    · cases hi
    · exact ⟨run, List.mem_singleton.mp hi⟩
  refine advances_induction (P := fun _ way => ∀ run : Bytes, ∀ i ∈ gather run way,
    ∃ bs, i = .insert bs) hp ?_ ?_ ?_ file run
  · intro bs _ run
    unfold lastAdvance
    rw [h bs]
    split
    · exact hinsertion run
    · exact hinsertion (run ++ bs)
  · intro bs b _ hf
    rw [h] at hf
    cases hf
  · intro b bs _ _ ih run
    rw [gather]
    split
    · exact List.forall_mem_cons.mpr ⟨⟨_, rfl⟩, ih []⟩
    · exact ih (run ++ [b])

/-- All of it is inserted since the beginning. -/
theorem loose_body (hs : s.params.Valid) (h : ∀ bs, s.find? bs = none) (file : Bytes) :
    loose 0 (s.body file) = file.length := by
  have hp := blockLength_pos hs
  have hbody := builtLength_body hs file
  rw [body, builtLength_join] at hbody
  rw [body, loose_of_inserts (isInsert_gather h hp file []), hbody, Nat.zero_add]

/-- If the signature does not know the file, what is left at the end is all of it that is not cut. -/
theorem exists_overlong (hs : s.params.Valid) (h : ∀ bs, s.find? bs = none) {file : Bytes}
    (hlong : insertLimit < lastInsertion s.blockLength file.length) :
    ∃ bs, .insert bs ∈ s.body file ∧ bs.length = lastInsertion s.blockLength file.length := by
  have hover : ¬ ∀ bs, .insert bs ∈ s.body file → bs.length ≤ insertLimit := by
    rw [inserts_le_iff hs, loose_body hs h]
    exact Nat.not_le_of_lt hlong
  push Not at hover
  obtain ⟨bs, hmem, hbs⟩ := hover
  obtain ⟨before, after, hbody⟩ := List.append_of_mem hmem
  obtain ⟨hle, heq⟩ := length_insert hs file hbody
  have hafter : after = [] := by
    by_contra hne
    exact absurd (hle hne) (Nat.not_le_of_lt hbs)
  rw [loose_body hs h] at heq
  exact ⟨bs, hmem, heq hafter⟩

end Signature

end BlockSync
