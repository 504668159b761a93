import BlockSync.Signature.Index

/-!
# Looking blocks up in order

* `Signature.find?`: the first block that agrees, by looking at one block after another;
* **`find?_ofSignature`**: the index finds the same block;
* `hasWeak_ofSignature`: there are candidates exactly if some block has the checksum.
-/

namespace BlockSync

/-- The first block, in the order of the file, with the checksum and the digest of `bs`, the latter as
far as it is kept. -/
def Signature.find? (s : Signature) (bs : Bytes) : Option BlockSum :=
  s.blocks.toList.find? fun b => b.weak == (RollingSum.ofBytes bs).packed &&
    b.strong.agrees (Blake3.hash bs) s.params.strongLength.toNat

namespace SignatureIndex

/-- The candidates for a checksum are the blocks that have it, in their order. -/
theorem getD_foldr_enter (blocks : List BlockSum) (weak : UInt32) :
    (blocks.foldr enter ∅).getD weak [] = blocks.filter (·.weak == weak) := by
  induction blocks with
  | nil => simp
  | cons b blocks ih =>
    rw [List.foldr_cons, enter, Std.HashMap.getD_insert]
    by_cases h : b.weak = weak
    · subst h; simp [ih]
    · simp [h, ih]

theorem contains_foldr_enter (blocks : List BlockSum) (weak : UInt32) :
    (blocks.foldr enter ∅).contains weak = blocks.any (·.weak == weak) := by
  induction blocks with
  | nil => simp
  | cons b blocks ih => rw [List.foldr_cons, enter, Std.HashMap.contains_insert, ih, List.any_cons]

theorem hasWeak_ofSignature (s : Signature) (weak : UInt32) :
    (ofSignature s).hasWeak weak = s.blocks.toList.any (·.weak == weak) :=
  contains_foldr_enter ..

/-- **The index finds the first block that agrees.** -/
theorem find?_ofSignature (s : Signature) (weak : UInt32) (bs : Bytes) :
    (ofSignature s).find? weak bs = s.blocks.toList.find? fun b => b.weak == weak &&
      b.strong.agrees (Blake3.hash bs) s.params.strongLength.toNat := by
  have hg := getD_foldr_enter s.blocks.toList weak
  rw [Std.HashMap.getD_eq_getD_getElem?] at hg
  have hf : (s.blocks.toList.find? fun b => b.weak == weak &&
      b.strong.agrees (Blake3.hash bs) s.params.strongLength.toNat) =
      (s.blocks.toList.filter (·.weak == weak)).find? fun b =>
        b.strong.agrees (Blake3.hash bs) s.params.strongLength.toNat := by
    rw [List.find?_filter]
    congr 1
    funext b
    rw [Bool.eq_iff_iff]; simp
  simp only [find?, ofSignature]
  rw [hf, ← hg]
  split
  · next h => rw [h]; rfl
  · next h => rw [h]; rfl

theorem find?_eq_none_of_hasWeak {s : Signature} {weak : UInt32}
    (h : (ofSignature s).hasWeak weak = false) (bs : Bytes) :
    (ofSignature s).find? weak bs = none := by
  rw [hasWeak_ofSignature, List.any_eq_false] at h
  rw [find?_ofSignature, List.find?_eq_none]
  intro b hb
  simp [h b hb]

end SignatureIndex

end BlockSync
