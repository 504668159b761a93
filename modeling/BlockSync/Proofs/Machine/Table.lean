import BlockSync.Proofs.Machine.Issuer
import Mathlib.Data.Finset.Dedup

/-!
# Looking blocks up as by a linear search

* `Signature.Matches`, `Signature.FirstMatch`: what a lookup is to find, said without an index;
* `Signature.weaks`, `size_eq_card`: the checksums that occur, and how a map tells their number;
* `BlockTable.pairwise_places`, `BlockTable.mem_places`: the candidates for a checksum are the
  positions of all blocks that have it, each once, in increasing order;
* **`SignatureIndex.find?_linear`**: both indexes of a signature answer as a search through its blocks
  does.
-/

namespace BlockSync

/-! ## What is looked for -/

/-- The block has the checksum, and its digest starts as that of `bs` does, as far as digests are
kept. -/
def Signature.Matches (s : Signature) (weak : UInt32) (bs : Bytes) (b : BlockSum) : Prop :=
  b.weak = weak ∧ b.strong.bytes.take (min s.params.strongLength.toNat 32) =
    (Blake3.hash bs).bytes.take (min s.params.strongLength.toNat 32)

/-- No block before `b` matches, and `b` does. -/
def Signature.FirstMatch (s : Signature) (weak : UInt32) (bs : Bytes) (b : BlockSum) : Prop :=
  s.Matches weak bs b ∧ ∃ (i : Nat) (hi : i < s.blocks.size), s.blocks[i] = b ∧
    ∀ (j : Nat) (hj : j < i), ¬ s.Matches weak bs s.blocks[j]

/-- More than all of a digest is all of it. -/
theorem Digest.take_min (d : Digest) (length : Nat) :
    d.bytes.take (min length 32) = d.initial length := by
  have hall : d.bytes.take 32 = d.bytes := List.take_of_length_le d.length_bytes.le
  rw [← List.take_take, hall, initial]

theorem Digest.agrees_iff (d e : Digest) (length : Nat) :
    d.agrees e length ↔ d.bytes.take (min length 32) = e.bytes.take (min length 32) := by
  rw [d.take_min, e.take_min, agrees, beq_iff_eq]

section Answers

variable (s : Signature) (weak : UInt32) (bs : Bytes)

/-- The test of the linear search. -/
theorem Signature.matches_iff (b : BlockSum) :
    (b.weak == weak && b.strong.agrees (Blake3.hash bs) s.params.strongLength.toNat) = true ↔
      s.Matches weak bs b := by
  rw [Bool.and_eq_true, beq_iff_eq, Digest.agrees_iff, Matches]

theorem SignatureIndex.find?_eq_some_iff (b : BlockSum) :
    (ofSignature s).find? weak bs = some b ↔ s.FirstMatch weak bs b := by
  rw [find?_ofSignature, Array.find?_toList, Array.find?_eq_some_iff_getElem, s.matches_iff,
    Signature.FirstMatch]
  simp only [Bool.not_eq_true', ← Bool.not_eq_true, s.matches_iff]

theorem SignatureIndex.find?_eq_none_iff :
    (ofSignature s).find? weak bs = none ↔ ∀ b ∈ s.blocks, ¬ s.Matches weak bs b := by
  rw [find?_ofSignature, List.find?_eq_none]
  simp only [s.matches_iff, Array.mem_toList_iff]

end Answers

/-! ## The checksums of a signature -/

/-- A map that has the keys of a finite set holds as many of them. -/
theorem size_eq_card {β : Type} {m : Std.HashMap UInt32 β} {keys : Finset UInt32}
    (h : ∀ k, m.contains k ↔ k ∈ keys) : m.size = keys.card := by
  have hkeys : m.keys.toFinset = keys := by
    ext k
    rw [List.mem_toFinset, Std.HashMap.mem_keys, ← Std.HashMap.contains_iff_mem, h]
  rw [← hkeys, List.toFinset_card_of_nodup Std.HashMap.nodup_keys, Std.HashMap.length_keys]

theorem SignatureIndex.hasWeak_iff (s : Signature) (weak : UInt32) :
    (ofSignature s).hasWeak weak ↔ ∃ b ∈ s.blocks, b.weak = weak := by
  rw [hasWeak_ofSignature, List.any_eq_true]
  simp only [beq_iff_eq, Array.mem_toList_iff]

/-- The checksums that occur in a signature. -/
def Signature.weaks (s : Signature) : Finset UInt32 := (s.blocks.toList.map (·.weak)).toFinset

theorem Signature.mem_weaks (s : Signature) (weak : UInt32) :
    weak ∈ s.weaks ↔ ∃ b ∈ s.blocks, b.weak = weak := by
  rw [weaks, List.mem_toFinset, List.mem_map]
  simp only [Array.mem_toList_iff]

/-! ## Positions as candidates -/

namespace BlockTable

/-- The number of different checksums. -/
def checksums (t : BlockTable) : Nat := t.positions.size

/-- Whether a block has this checksum. -/
def hasWeak (t : BlockTable) (weak : UInt32) : Bool := t.positions.contains weak

theorem contains_foldl_enter (bs : List (BlockSum × Nat)) (m : Std.HashMap UInt32 (List Nat))
    (weak : UInt32) : (bs.foldl enter m).contains weak =
      (m.contains weak || (bs.map (·.1)).any (·.weak == weak)) := by
  induction bs generalizing m with
  | nil => simp
  | cons b bs ih =>
    rw [List.foldl_cons, ih, enter, Std.HashMap.contains_insert, List.map_cons, List.any_cons,
      Bool.or_comm (b.1.weak == weak), Bool.or_assoc]

variable (s : Signature) (weak : UInt32)

/-- The candidates for a checksum. -/
def places (t : BlockTable) (weak : UInt32) : List Nat := t.positions.getD weak []

theorem places_ofSignature : (ofSignature s).places weak =
    (s.blocks.toList.zipIdx.filter (·.1.weak == weak)).map (·.2) := by
  have h := getD_foldl_enter s.blocks.toList.zipIdx ∅ weak
  rwa [Std.HashMap.getD_empty, List.nil_append] at h

/-- None is entered twice or out of order. -/
theorem pairwise_places : ((ofSignature s).places weak).Pairwise (· < ·) := by
  rw [places_ofSignature]
  have hsub := (List.filter_sublist (p := fun b : BlockSum × Nat => b.1.weak == weak)
    (l := s.blocks.toList.zipIdx)).map Prod.snd
  rw [List.zipIdx_map_snd] at hsub
  exact (List.pairwise_lt_range' 1).sublist hsub

/-- None is lost. -/
theorem mem_places (i : Nat) :
    i ∈ (ofSignature s).places weak ↔ ∃ b, s.blocks[i]? = some b ∧ b.weak = weak := by
  rw [places_ofSignature, List.mem_map]
  constructor
  · rintro ⟨⟨b, j⟩, hmem, rfl⟩
    obtain ⟨hmem, hweak⟩ := List.mem_filter.mp hmem
    refine ⟨b, ?_, beq_iff_eq.mp hweak⟩
    rw [← Array.getElem?_toList]
    exact List.mem_zipIdx_iff_getElem?.mp hmem
  · rintro ⟨b, hb, hweak⟩
    rw [← Array.getElem?_toList] at hb
    exact ⟨(b, i), List.mem_filter.mpr ⟨List.mem_zipIdx_iff_getElem?.mpr hb, beq_iff_eq.mpr hweak⟩, rfl⟩

theorem hasWeak_ofSignature :
    (ofSignature s).hasWeak weak = (SignatureIndex.ofSignature s).hasWeak weak := by
  have h := contains_foldl_enter s.blocks.toList.zipIdx ∅ weak
  rw [Std.HashMap.contains_empty, Bool.false_or, List.zipIdx_map_fst] at h
  rw [SignatureIndex.hasWeak_ofSignature]
  exact h

end BlockTable

/-! ## Both indexes -/

namespace SignatureIndex

/-- **Both indexes answer as a search through the blocks does.** What is found is the first block that
matches, and nothing just when none matches; a checksum has candidates just when some block has it;
and there are as many checksums as occur in the signature. The positions that are candidates for a
checksum are those of the blocks that have it, each once and in order. -/
theorem find?_linear (s : Signature) (weak : UInt32) (bs : Bytes) :
    (∀ b, (ofSignature s).find? weak bs = some b ↔ s.FirstMatch weak bs b) ∧
      ((ofSignature s).find? weak bs = none ↔ ∀ b ∈ s.blocks, ¬ s.Matches weak bs b) ∧
      ((ofSignature s).hasWeak weak ↔ ∃ b ∈ s.blocks, b.weak = weak) ∧
      (ofSignature s).checksums = s.weaks.card ∧
      (BlockTable.ofSignature s).find? weak bs = .ok ((ofSignature s).find? weak bs) ∧
      (BlockTable.ofSignature s).hasWeak weak = (ofSignature s).hasWeak weak ∧
      (BlockTable.ofSignature s).checksums = (ofSignature s).checksums ∧
      ((BlockTable.ofSignature s).places weak).Pairwise (· < ·) ∧
      ∀ i, i ∈ (BlockTable.ofSignature s).places weak ↔
        ∃ b, s.blocks[i]? = some b ∧ b.weak = weak := by
  have hcount : (ofSignature s).checksums = s.weaks.card :=
    size_eq_card fun k => (hasWeak_iff s k).trans (s.mem_weaks k).symm
  have hplaces : (BlockTable.ofSignature s).checksums = s.weaks.card :=
    size_eq_card fun k => by
      have hk := BlockTable.hasWeak_ofSignature s k
      rw [BlockTable.hasWeak] at hk
      rw [hk, hasWeak_iff, s.mem_weaks]
  exact ⟨find?_eq_some_iff s weak bs, find?_eq_none_iff s weak bs, hasWeak_iff s weak, hcount,
    BlockTable.find?_eq s weak bs, BlockTable.hasWeak_ofSignature s weak, hplaces.trans hcount.symm,
    BlockTable.pairwise_places s weak, BlockTable.mem_places s weak⟩

end SignatureIndex

end BlockSync
