import BlockSync.Proofs.Delta.Books
import BlockSync.Proofs.Machine.Buffer

/-!
# Looking blocks up and issuing instructions on the machine

* `BlockTable`: an index whose candidates are positions in the signature;
* **`BlockTable.find?_eq`**: looking up never asks for a block that is not there, and finds the same
  block;
* `Issuer`: the copy that is held back, the output that waits and the totals;
* **`DeltaEncoder.issuer_releaseCopy`**, **`DeltaEncoder.issuer_copy`**,
  **`DeltaEncoder.issuer_insert`**: issuing instructions traps at nothing as long as the books balance
  and the file can be counted.
-/

namespace BlockSync

open Machine

/-! ## Looking blocks up -/

/-- The first bytes of a digest, or all of them. -/
def Digest.front (d : Digest) (length : Nat) : Machine Bytes := part d.bytes 0 (min length digestLength)

theorem Digest.front_eq (d : Digest) (length : Nat) : d.front length = .ok (d.initial length) := by
  have hle : min length digestLength ≤ d.bytes.length := by
    rw [d.length_bytes]
    exact Nat.min_le_right _ _
  rw [front, part_zero hle, ← d.length_bytes, ← List.take_take, List.take_length, initial]

/-- A signature with the positions of the blocks that have a checksum. -/
structure BlockTable where
  signature : Signature
  positions : Std.HashMap UInt32 (List Nat)

namespace BlockTable

/-- A block becomes the last candidate for its checksum. -/
def enter (m : Std.HashMap UInt32 (List Nat)) (b : BlockSum × Nat) : Std.HashMap UInt32 (List Nat) :=
  m.insert b.1.weak (m.getD b.1.weak [] ++ [b.2])

def ofSignature (s : Signature) : BlockTable := ⟨s, s.blocks.toList.zipIdx.foldl enter ∅⟩

/-- The first of the blocks at some positions that agrees with a digest as far as that is kept. -/
def search (t : BlockTable) (strong : Digest) : List Nat → Machine (Option BlockSum)
  | [] => return none
  | i :: positions => do
    let b ← fetch t.signature.blocks i
    let kept ← b.strong.front t.signature.params.strongLength.toNat
    let found ← strong.front t.signature.params.strongLength.toNat
    if kept = found then return some b else t.search strong positions

/-- The first block with this checksum that agrees with the digest of `bs` as far as it is kept. -/
def find? (t : BlockTable) (weak : UInt32) (bs : Bytes) : Machine (Option BlockSum) :=
  match t.positions[weak]? with
  | none => return none
  | some positions => t.search (Blake3.hash bs) positions

/-- The candidates for a checksum are the positions of the blocks that have it, in their order. -/
theorem getD_foldl_enter (bs : List (BlockSum × Nat)) (m : Std.HashMap UInt32 (List Nat))
    (weak : UInt32) : (bs.foldl enter m).getD weak [] =
      m.getD weak [] ++ (bs.filter (·.1.weak == weak)).map (·.2) := by
  induction bs generalizing m with
  | nil => simp
  | cons b bs ih =>
    rw [List.foldl_cons, ih, enter, Std.HashMap.getD_insert]
    by_cases h : b.1.weak = weak
    · subst h
      simp
    · simp [h]

/-- Blocks that are where they are said to be are found. -/
theorem search_eq (t : BlockTable) (strong : Digest) {bs : List (BlockSum × Nat)}
    (h : ∀ b ∈ bs, t.signature.blocks[b.2]? = some b.1) :
    t.search strong (bs.map (·.2)) = .ok ((bs.map (·.1)).find? fun b =>
      b.strong.agrees strong t.signature.params.strongLength.toNat) := by
  induction bs with
  | nil => rfl
  | cons b bs ih =>
    have hb := h b List.mem_cons_self
    have hrest := ih fun c hc => h c (List.mem_cons_of_mem _ hc)
    obtain ⟨hi, hget⟩ := Array.getElem?_eq_some_iff.mp hb
    simp only [List.map_cons, search, fetch_of_lt hi, bind_ok, Digest.front_eq, hget]
    by_cases ha : b.1.strong.initial t.signature.params.strongLength.toNat =
        strong.initial t.signature.params.strongLength.toNat
    · rw [if_pos ha, List.find?_cons_of_pos (by simpa [Digest.agrees] using ha)]
      rfl
    · rw [if_neg ha, List.find?_cons_of_neg (by simpa [Digest.agrees] using ha)]
      exact hrest

theorem find?_eq_search (t : BlockTable) (weak : UInt32) (bs : Bytes) :
    t.find? weak bs = t.search (Blake3.hash bs) (t.positions.getD weak []) := by
  rw [find?, Std.HashMap.getD_eq_getD_getElem?]
  cases t.positions[weak]? <;> rfl

/-- **Looking up on the machine finds the block that the index finds.** -/
theorem find?_eq (s : Signature) (weak : UInt32) (bs : Bytes) :
    (ofSignature s).find? weak bs = .ok ((SignatureIndex.ofSignature s).find? weak bs) := by
  have hpositions := getD_foldl_enter s.blocks.toList.zipIdx ∅ weak
  rw [Std.HashMap.getD_empty, List.nil_append] at hpositions
  have hblocks : (s.blocks.toList.zipIdx.filter (·.1.weak == weak)).map (·.1) =
      s.blocks.toList.filter (·.weak == weak) := by
    have hmap := List.filter_map (f := Prod.fst) (p := fun b : BlockSum => b.weak == weak)
      (l := s.blocks.toList.zipIdx)
    rw [List.zipIdx_map_fst] at hmap
    exact hmap.symm
  have hplaces : ∀ b ∈ s.blocks.toList.zipIdx.filter (·.1.weak == weak),
      (ofSignature s).signature.blocks[b.2]? = some b.1 := fun b hb => by
    have hmem := List.mem_zipIdx_iff_getElem?.mp (List.mem_filter.mp hb).1
    simpa [ofSignature] using hmem
  have hsearch := search_eq (ofSignature s) (Blake3.hash bs) hplaces
  rw [← hpositions, hblocks, List.find?_filter] at hsearch
  rw [find?_eq_search, SignatureIndex.find?_ofSignature]
  refine hsearch.trans ?_
  congr 2
  funext b
  rw [Bool.eq_iff_iff]
  simp [ofSignature]

end BlockTable

/-! ## Issuing instructions -/

/-- What issues instructions. -/
structure Issuer where
  /-- The copy that is held back. -/
  pending : Option PendingCopy
  outbox : Outbox
  totals : DeltaTotals

namespace Issuer

/-- An instruction waits to be written. -/
def put (i : Issuer) (instruction : Instruction) : Issuer :=
  { i with outbox := i.outbox.append instruction.encode }

/-- The copy that is held back is issued. -/
def releaseCopy (i : Issuer) : Machine Issuer :=
  match i.pending with
  | none => return i
  | some c => do
    let copies ← add 64 i.totals.copies 1
    let copied ← add 64 i.totals.copied c.length.toNat
    return { { i with pending := none }.put (.copy c.offset c.length) with
      totals := { i.totals with copies := copies, copied := copied } }

/-- A copy is held back in the place of another one. -/
def hold (i : Issuer) (c : PendingCopy) : Machine Issuer := do
  let i ← i.releaseCopy
  return { i with pending := some c }

/-- A copy continues the one that is held back, or is held back in its place. -/
def copy (i : Issuer) (c : PendingCopy) : Machine Issuer :=
  match i.pending with
  | none => i.hold c
  | some p => do
    let back ← add 64 p.offset.toNat p.length.toNat
    -- a sum that does not fit a word is not written as one copy
    if back = c.offset.toNat ∧ p.length.toNat + c.length.toNat < 2 ^ 32 then
      return { i with pending := some ⟨p.offset, p.length + c.length⟩ }
    else i.hold c

/-- Bytes are inserted. -/
def insert (i : Issuer) (bs : Bytes) : Machine Issuer := do
  let _ ← narrow 32 bs.length
  let inserts ← add 64 i.totals.inserts 1
  let inserted ← add 64 i.totals.inserted bs.length
  return { i.put (.insert bs) with
    totals := { i.totals with inserts := inserts, inserted := inserted } }

end Issuer

namespace DeltaEncoder

variable {e : DeltaEncoder} {n : Nat}

/-- What issues the instructions of an encoder. -/
def issuer (e : DeltaEncoder) : Issuer := ⟨e.pending, e.backlog.outbox, e.totals⟩

/-- **Issuing the copy that was held back**, of bytes that can be counted. -/
theorem issuer_releaseCopy (h : Books e n) (hn : n < 2 ^ 64) :
    e.issuer.releaseCopy = .ok e.releaseCopy.issuer := by
  have hbalance := h.balance
  have hcopies := h.copies
  unfold Issuer.releaseCopy releaseCopy
  cases hp : e.pending with
  | none =>
    rw [show e.issuer.pending = none from hp]
    rfl
  | some c =>
    have hpos := (h.held c hp).1
    rw [heldLength_of_some hp] at hbalance
    have hcount : e.issuer.totals.copies + 1 < 2 ^ 64 := by
      change e.totals.copies + 1 < _
      omega
    have hcopied : e.issuer.totals.copied + c.length.toNat < 2 ^ 64 := by
      change e.totals.copied + c.length.toNat < _
      omega
    rw [show e.issuer.pending = some c from hp]
    simp only [add_of_lt hcount, add_of_lt hcopied, bind_ok]
    rfl

theorem issuer_hold (h : Books e n) (hn : n < 2 ^ 64) (c : PendingCopy) :
    e.issuer.hold c = .ok { e.releaseCopy.issuer with pending := some c } := by
  rw [Issuer.hold, issuer_releaseCopy h hn]
  rfl

/-- **A copy that may continue the one that is held back.** -/
theorem issuer_copy (h : Books e n) (hn : n < 2 ^ 64) (c : PendingCopy) :
    e.issuer.copy c = .ok (e.copy c).issuer := by
  have hhold := issuer_hold h hn c
  unfold Issuer.copy copy
  cases hp : e.pending with
  | none =>
    rw [show e.issuer.pending = none from hp]
    exact hhold
  | some p =>
    have hoffset := (h.held p hp).2
    have hback : p.offset.toNat + p.length.toNat < 2 ^ 64 := by
      have := p.length.toNat_lt
      omega
    rw [show e.issuer.pending = some p from hp]
    simp only [add_of_lt hback, bind_ok, Option.bind_some, PendingCopy.merge?]
    by_cases hm : p.offset.toNat + p.length.toNat = c.offset.toNat ∧
        p.length.toNat + c.length.toNat < UInt32.size
    · rw [if_pos hm, if_pos (by exact hm)]
      rfl
    · rw [if_neg hm, if_neg (by exact hm)]
      exact hhold

/-- **Inserting bytes**, if what is inserted can be counted. -/
theorem issuer_insert (h : e.totals.inserts ≤ e.totals.inserted) {bs : Bytes} (hne : bs ≠ [])
    (hlen : bs.length < 2 ^ 32) (hn : e.totals.inserted + bs.length < 2 ^ 64) :
    e.issuer.insert bs = .ok (e.issue (.insert bs)).issuer := by
  have hpos := List.length_pos_iff.mpr hne
  have hcount : e.issuer.totals.inserts + 1 < 2 ^ 64 := by
    change e.totals.inserts + 1 < _
    omega
  have hinserted : e.issuer.totals.inserted + bs.length < 2 ^ 64 := hn
  simp only [Issuer.insert, narrow_of_lt hlen, add_of_lt hcount, add_of_lt hinserted, bind_ok]
  rfl

end DeltaEncoder

end BlockSync
