import BlockSync.Proofs.Delta.Books
import BlockSync.Proofs.Delta.Moves
import BlockSync.Proofs.Orderly
import BlockSync.Proofs.Signature.Emitting
import BlockSync.Proofs.Signature.Loading

/-!
# How much a transducer keeps

What a transducer keeps between two steps depends on the storage of its input and not on how much has
passed through it.

* `Transducer.Visits`: the states that steps lead to, whatever the queues hold at each of them;
* `SignatureEmitter.Modest`: less than one block, and the records of the blocks that one full queue
  completes;
* `DeltaEncoder.Compact`, `DeltaEncoder.weight`: the run and the window are short, and of each byte
  that arrives no more than a few are written;
* `SignatureLoader.Scant`, `Field.length_collect_le`: no field is longer than the longest one;
* **`Transducer.footprint_bounded`**: the bounds, and that no input is taken while output waits.
-/

namespace BlockSync

/-! ## The states that steps lead to -/

/-- The states that steps lead to, if no input queue has more than `capacity` bytes of storage. What
the queues hold does not matter, nor whether a step has failed before. -/
inductive Transducer.Visits {τ : Type} [Transducer τ] (capacity : Nat) (start : τ) : τ → Prop
  | start : Visits capacity start start
  | step {t : τ} {input output : Queue} : Visits capacity start t → input.capacity ≤ capacity →
      Visits capacity start (Transducer.step ⟨t, input, output⟩).2.state

open Transducer (Visits)

/-- What holds at the start and is kept by every step holds of all states that steps lead to. -/
theorem Transducer.Visits.induct {τ : Type} [Transducer τ] {capacity : Nat} {start t : τ}
    {P : τ → Prop} (h : Visits capacity start t) (hstart : P start)
    (hstep : ∀ b : Bench τ, P b.state → b.input.capacity ≤ capacity →
      P (Transducer.step b).2.state) : P t := by
  induction h with
  | start => exact hstart
  | step _ hc ih => exact hstep _ ih hc

namespace Backlog

theorem length_append (b : Backlog) (bs : Bytes) : (b.append bs).length = b.length + bs.length := by
  rw [← length_pending, pending_append, List.length_append, length_pending]

theorem length_pour (b : Backlog) (q : Queue) : (b.pour q).1.length = b.length - q.room := by
  rw [← length_pending, (b.pour_eq q).2, List.length_drop, length_pending]

/-- What does not fit into a queue still waits. -/
theorem waits_of_room_lt {b : Backlog} {q : Queue} (h : q.room < b.length) :
    (!(b.pour q).1.isEmpty) = true := by
  rw [waits_iff, ← List.length_pos_iff, length_pending, length_pour]
  exact Nat.sub_pos_of_lt h

end Backlog

/-! ## Emitters -/

namespace SignatureEmitter

variable {p : Params} {e : SignatureEmitter} {capacity : Nat}

/-- An emitter keeps less than one block, and the records of the blocks that one full queue completes
or the header. -/
structure Modest (p : Params) (capacity : Nat) (e : SignatureEmitter) : Prop extends Stands p e where
  backlog : e.backlog.length ≤
    signatureHeaderLength + (capacity / p.blockLength.toNat + 2) * p.recordLength

/-- The blocks that less than one block and one full queue can begin. -/
theorem length_records_le_of_capacity (hp : p.Valid) {bs : Bytes}
    (h : bs.length < p.blockLength.toNat + capacity) :
    (records p bs).length ≤ (capacity / p.blockLength.toNat + 2) * p.recordLength := by
  have hpos : 0 < p.blockLength.toNat := Nat.lt_of_lt_of_le (by decide) hp.le_blockLength
  rw [records, length_flatMap_blockRecord hp, length_blocksOf hpos]
  refine Nat.mul_le_mul_right _ ?_
  calc (bs.length + p.blockLength.toNat - 1) / p.blockLength.toNat
      ≤ (capacity + 2 * p.blockLength.toNat) / p.blockLength.toNat := Nat.div_le_div_right (by omega)
    _ = capacity / p.blockLength.toNat + 2 := Nat.add_mul_div_right _ _ hpos

/-- Of some input no more is written than the records of all blocks that are at hand. -/
theorem takeInput_makes {b : Bench SignatureEmitter} (h : Stands p b.state) :
    Stands p (takeInput b).state ∧ (takeInput b).state.backlog.length ≤
      b.state.backlog.length + (records p (b.state.block.toList ++ b.input.content)).length := by
  have hm := foldl_absorb_moves h b.input.content
  obtain ⟨made, hp, hr⟩ := hm.made
  have hrecords := hr []
  rw [List.append_nil, List.append_nil] at hrecords
  have hmade : (b.input.content.foldl absorb b.state).backlog.length =
      b.state.backlog.length + made.length := by
    rw [← Backlog.length_pending, hp, List.length_append, Backlog.length_pending]
  rw [hrecords, List.length_append]
  simp only [takeInput]
  split
  · cases hf : b.state.finished with
    | true =>
      rw [endFile, if_pos (hm.finished.trans hf)]
      exact ⟨hm.stands, by omega⟩
    | false =>
      obtain ⟨hs, -, -, hpending⟩ := endFile_spec hm.stands (hm.finished.trans hf)
      refine ⟨hs, ?_⟩
      rw [← Backlog.length_pending, hpending, List.length_append, Backlog.length_pending]
      omega
  · exact ⟨hm.stands, by omega⟩

theorem modest_start (h : start p = .ok e) : p.Valid ∧ ∀ {capacity}, Modest p capacity e := by
  have hv := valid_of_start h
  obtain rfl : (⟨p, #[], 0, Backlog.empty.append p.header, false⟩ : SignatureEmitter) = e := by
    simpa [start, (Params.check_iff p).mpr hv, bind, Except.bind, pure, Except.pure] using h
  refine ⟨hv, ⟨rfl, Nat.lt_of_lt_of_le (by decide : 0 < 64) hv.le_blockLength⟩, ?_⟩
  have hheader : (Backlog.empty.append p.header).length = signatureHeaderLength := by
    rw [Backlog.length_append, Params.length_header]
    exact Nat.zero_add _
  exact hheader ▸ Nat.le_add_right _ _

theorem modest_step (hv : p.Valid) {b : Bench SignatureEmitter} (h : Modest p capacity b.state)
    (hc : b.input.capacity ≤ capacity) : Modest p capacity (step b).state := by
  have hstands : Stands p ((backlogged p).poured b).state := ⟨h.params, h.short⟩
  by_cases hw : (backlogged p).pending ((backlogged p).poured b).state = []
  · obtain ⟨hs, hmade⟩ := takeInput_makes hstands
    have hsize := hstands.short
    have hlen := b.input.length_le_capacity
    have hnone : ((backlogged p).poured b).state.backlog.length = 0 := by
      rw [← Backlog.length_pending]
      exact List.length_eq_zero_iff.mpr hw
    have hrecords : (records p (((backlogged p).poured b).state.block.toList ++
        b.input.content)).length ≤ (capacity / p.blockLength.toNat + 2) * p.recordLength := by
      refine length_records_le_of_capacity hv ?_
      rw [List.length_append, Array.length_toList]
      omega
    rw [step_of_poured hw]
    refine ⟨⟨hs.params, hs.short⟩, ?_⟩
    calc ((takeInput ((backlogged p).poured b)).state.backlog.pour _).1.length
        ≤ (takeInput ((backlogged p).poured b)).state.backlog.length := by
          rw [Backlog.length_pour]
          exact Nat.sub_le _ _
      _ ≤ (capacity / p.blockLength.toNat + 2) * p.recordLength := by
          rw [hnone, Nat.zero_add] at hmade
          exact Nat.le_trans hmade hrecords
      _ ≤ _ := Nat.le_add_left _ _
  · rw [step_of_waiting hw]
    refine ⟨hstands, Nat.le_trans ?_ h.backlog⟩
    exact Nat.le_trans (Nat.le_of_eq (Backlog.length_pour _ _)) (Nat.sub_le _ _)

/-- No input is taken while output waits. -/
theorem input_of_room_lt {b : Bench SignatureEmitter} (h : b.output.room < b.state.backlog.length) :
    (step b).input = b.input := by
  unfold step
  dsimp only
  rw [if_pos (Backlog.waits_of_room_lt h)]

end SignatureEmitter

/-! ## Encoders -/

namespace DeltaEncoder

variable {t : SignatureIndex} {e : DeltaEncoder} {capacity : Nat}

/-- The run is shorter than a run may become, and the window behind it shorter than a block. -/
structure Compact (t : SignatureIndex) (e : DeltaEncoder) : Prop where
  index : e.index = t
  run_lt : e.run < insertLimit
  run_le : e.run ≤ e.buffer.size
  size_lt : e.buffer.size < e.run + t.blockLength.toNat

/-- What waits, the bytes in the buffer and the copy that is held back, all of them twice, and the run
once more: of every byte that joins it a part of what inserting it will cost is put aside. -/
def weight (e : DeltaEncoder) : Nat :=
  2 * (e.backlog.length + e.buffer.size + 13 * e.pending.toList.length) + e.run

theorem weight_issue (e : DeltaEncoder) (i : Instruction) :
    (e.issue i).weight = e.weight + 2 * i.wireLength := by
  simp only [weight, issue, Backlog.length_append, i.length_encode]
  omega

/-- A copy that is held back weighs as much as one that waits. -/
theorem weight_releaseCopy (e : DeltaEncoder) : e.releaseCopy.weight = e.weight := by
  unfold releaseCopy
  split
  · rfl
  · next c hc =>
    rw [weight_issue]
    simp only [weight, hc, Option.toList, List.length_nil, List.length_singleton,
      Instruction.wireLength]
    omega

theorem index_releaseCopy (e : DeltaEncoder) : e.releaseCopy.index = e.index :=
  (issued_releaseCopy e).index

/-- The run leaves the buffer. What it has put aside goes towards what inserting it costs. -/
theorem releaseRun_spec (h : e.run ≤ e.buffer.size) :
    e.releaseRun.index = e.index ∧ e.releaseRun.run = 0 ∧
      e.releaseRun.buffer.size = e.buffer.size - e.run ∧
      e.releaseRun.weight + e.run ≤ e.weight + 10 := by
  unfold releaseRun
  by_cases hz : e.run = 0
  · rw [if_pos hz]
    exact ⟨rfl, hz, by omega, by omega⟩
  · obtain ⟨hbuffer, hrun⟩ := buffer_releaseCopy e
    have hlen : (slice e.buffer 0 e.run).length = e.run := by
      rw [length_slice]
      omega
    have hweight := weight_releaseCopy e
    rw [if_neg hz]
    refine ⟨index_releaseCopy e, rfl, ?_, ?_⟩
    · simp only [issue, hbuffer, hrun, Array.size_extract]
      omega
    · rw [weight_issue]
      simp only [weight, hbuffer, hrun, Instruction.wireLength, hlen, Array.size_extract] at hweight ⊢
      omega

theorem copy_spec (e : DeltaEncoder) (c : PendingCopy) :
    (e.copy c).index = e.index ∧ (e.copy c).weight ≤ e.weight + 26 := by
  unfold copy
  split
  · next merged hm =>
    obtain ⟨c', hc, -⟩ := Option.bind_eq_some_iff.mp hm
    refine ⟨rfl, ?_⟩
    simp only [weight, hc, Option.toList, List.length_singleton]
    omega
  · have hweight := weight_releaseCopy e
    refine ⟨index_releaseCopy e, ?_⟩
    simp only [weight, pending_releaseCopy, Option.toList, List.length_nil,
      List.length_singleton] at hweight ⊢
    omega

/-- A window that is taken whole makes up for the copy in its place, if it is long. -/
theorem takeBlock_spec (h : e.run ≤ e.buffer.size) (b : BlockSum) :
    (e.takeBlock b).index = e.index ∧ (e.takeBlock b).run = 0 ∧ (e.takeBlock b).buffer = #[] ∧
      (e.takeBlock b).weight + 2 * (e.buffer.size - e.run) ≤ e.weight + 36 := by
  obtain ⟨hindex, hrun, hsize, hweight⟩ := releaseRun_spec h
  let c : PendingCopy :=
    ⟨b.index.toUInt64 * e.index.blockLength.toUInt64, UInt32.ofNat (e.buffer.size - e.run)⟩
  let cleared : DeltaEncoder := { e.releaseRun with buffer := #[], run := 0, last := none }
  have htake : e.takeBlock b = cleared.copy c := rfl
  have hcleared : cleared.weight + 2 * (e.buffer.size - e.run) = e.releaseRun.weight := by
    simp only [weight, cleared, hrun, hsize, Array.size_empty]
    omega
  obtain ⟨hbuffer, hrun', -⟩ := buffer_copy cleared c
  obtain ⟨hindex', hweight'⟩ := copy_spec cleared c
  rw [htake]
  refine ⟨hindex'.trans hindex, hrun', hbuffer, ?_⟩
  omega

/-- The window moves over one byte, which puts its part aside. -/
theorem extendRun_spec (h : e.run < e.buffer.size) (hl : e.run < insertLimit) :
    e.extendRun.index = e.index ∧ e.extendRun.run < insertLimit ∧
      e.extendRun.run ≤ e.extendRun.buffer.size ∧
      e.extendRun.buffer.size + (e.run + 1) = e.buffer.size + e.extendRun.run ∧
      e.extendRun.weight ≤ e.weight + 1 := by
  let moved : DeltaEncoder := { e with run := e.run + 1 }
  have hmoved : moved.weight = e.weight + 1 := rfl
  have hextend : e.extendRun = if insertLimit ≤ e.run + 1 then moved.releaseRun else moved := rfl
  rw [hextend]
  by_cases hc : insertLimit ≤ e.run + 1
  · obtain ⟨hindex, hrun, hsize, hweight⟩ := releaseRun_spec (e := moved) h
    have hten : 10 ≤ insertLimit := by decide
    have hsize' : moved.releaseRun.buffer.size = e.buffer.size - (e.run + 1) := hsize
    have hweight' : moved.releaseRun.weight + (e.run + 1) ≤ moved.weight + 10 := hweight
    rw [if_pos hc]
    refine ⟨hindex, ?_, ?_, ?_, ?_⟩ <;> omega
  · rw [if_neg hc]
    exact ⟨rfl, Nat.lt_of_not_ge hc, h, rfl, Nat.le_of_eq hmoved⟩

/-- A byte that arrives waits in the window until that is full; a full window is taken, or its first
byte is. -/
theorem absorb_cases (e : DeltaEncoder) (b : UInt8) :
    ((e.receive b).buffer.size - (e.receive b).run < (e.receive b).index.blockLength.toNat ∧
        e.absorb b = e.receive b) ∨
      ((e.receive b).index.blockLength.toNat ≤ (e.receive b).buffer.size - (e.receive b).run ∧
        ((∃ block, e.absorb b = (e.receive b).takeBlock block) ∨
          ∃ sum, e.absorb b = (e.receive b).takeByte sum)) := by
  unfold absorb
  extract_lets e' sum
  split
  · next hshort => exact .inl ⟨hshort, rfl⟩
  · next hfull =>
    refine .inr ⟨Nat.le_of_not_lt hfull, ?_⟩
    -- it does not matter how the checksum was found
    clear_value sum
    split
    · split
      · next block _ => exact .inl ⟨block, rfl⟩
      · exact .inr ⟨sum, rfl⟩
    · exact .inr ⟨sum, rfl⟩

/-- A byte that arrives is in the buffer, where it counts twice. -/
theorem receive_spec (h : Compact t e) (b : UInt8) :
    (e.receive b).index = t ∧ (e.receive b).run = e.run ∧
      (e.receive b).buffer.size = e.buffer.size + 1 ∧ (e.receive b).weight = e.weight + 2 := by
  have hsize : (e.receive b).buffer.size = e.buffer.size + 1 := Array.size_push _
  refine ⟨h.index, rfl, hsize, ?_⟩
  simp only [weight, hsize]
  simp only [receive]
  omega

/-- The first byte of a full window joins the run. -/
theorem takeByte_spec (h : e.run < e.buffer.size) (hl : e.run < insertLimit) (sum : RollingSum) :
    (e.takeByte sum).index = e.index ∧ (e.takeByte sum).run < insertLimit ∧
      (e.takeByte sum).run ≤ (e.takeByte sum).buffer.size ∧
      (e.takeByte sum).buffer.size + (e.run + 1) = e.buffer.size + (e.takeByte sum).run ∧
      (e.takeByte sum).weight ≤ e.weight + 1 :=
  extendRun_spec (e := { e with last := some (sum, e.buffer.getD e.run 0) }) h hl

/-- **Of each byte that arrives no more than a few are written**, and the run and the window stay
short. -/
theorem absorb_spec (hv : t.signature.params.Valid) (h : Compact t e) (b : UInt8) :
    Compact t (e.absorb b) ∧ (e.absorb b).weight ≤ e.weight + 3 := by
  obtain ⟨hindex, hrun, hsize, hweight⟩ := receive_spec h b
  have hlong : 64 ≤ t.blockLength.toNat := hv.le_blockLength
  have hlt := h.run_lt
  have hle := h.run_le
  have hwindow := h.size_lt
  rcases absorb_cases e b with ⟨hshort, heq⟩ | ⟨hfull, ⟨block, heq⟩ | ⟨sum, heq⟩⟩ <;> rw [heq]
  · rw [hindex] at hshort
    exact ⟨⟨hindex, by omega, by omega, by omega⟩, by omega⟩
  · rw [hindex] at hfull
    obtain ⟨hindex', hrun', hbuffer', hweight'⟩ := takeBlock_spec (e := e.receive b) (by omega) block
    have hnone : ((e.receive b).takeBlock block).buffer.size = 0 := congrArg Array.size hbuffer'
    have hlimit : 0 < insertLimit := by decide
    exact ⟨⟨hindex'.trans hindex, by omega, by omega, by omega⟩, by omega⟩
  · obtain ⟨hindex', hrun', hle', hsize', hweight'⟩ :=
      takeByte_spec (e := e.receive b) (by omega) (by omega) sum
    exact ⟨⟨hindex'.trans hindex, hrun', hle', by omega⟩, by omega⟩

theorem foldl_absorb_spec (hv : t.signature.params.Valid) (h : Compact t e) (bs : Bytes) :
    Compact t (bs.foldl absorb e) ∧ (bs.foldl absorb e).weight ≤ e.weight + 3 * bs.length := by
  induction bs generalizing e with
  | nil => exact ⟨h, Nat.le_refl _⟩
  | cons b bs ih =>
    obtain ⟨hb, hweight⟩ := absorb_spec hv h b
    obtain ⟨hbs, hweight'⟩ := ih hb
    refine ⟨hbs, ?_⟩
    simp only [List.foldl_cons, List.length_cons] at hweight' ⊢
    omega

/-- What is left of the window is taken, or joins the run. -/
theorem takeTail_spec (h : Compact t e) :
    e.takeTail.index = t ∧ e.takeTail.run = e.takeTail.buffer.size ∧
      e.takeTail.weight ≤ e.weight + t.blockLength.toNat + 36 := by
  have hsize := h.size_lt
  unfold takeTail
  split
  · next block _ =>
    obtain ⟨hindex, hrun, hbuffer, hweight⟩ := takeBlock_spec h.run_le block
    refine ⟨hindex.trans h.index, ?_, by omega⟩
    rw [hrun, hbuffer, Array.size_empty]
  · refine ⟨h.index, rfl, ?_⟩
    simp only [weight]
    omega

theorem endFile_spec (hpos : 0 < t.blockLength.toNat) (h : Compact t e) :
    ∃ e', e.endFile = (.ok (), e') ∧ Compact t e' ∧
      e'.weight ≤ e.weight + t.blockLength.toNat + 112 := by
  obtain ⟨hindex, hrun, hweight⟩ := takeTail_spec h
  obtain ⟨hindex', hrun', hsize', hweight'⟩ := releaseRun_spec (Nat.le_of_eq hrun)
  obtain ⟨hbuffer, hrun''⟩ := buffer_releaseCopy e.takeTail.releaseRun
  have hindex'' := index_releaseCopy e.takeTail.releaseRun
  have hrelease := weight_releaseCopy e.takeTail.releaseRun
  refine ⟨_, endFile_eq h.run_le, ⟨?_, ?_, ?_, ?_⟩, ?_⟩
  · exact hindex''.trans (hindex'.trans hindex)
  · simp only [issue, hrun'', hrun']
    decide
  · simp only [issue, hrun'', hrun']
    exact Nat.zero_le _
  · simp only [issue, hrun'', hrun', hbuffer, hsize', hrun]
    omega
  · have hclose : (Instruction.close e.takeTail.releaseRun.releaseCopy.hasher.digest).wireLength = 33 :=
      rfl
    rw [weight_issue, hclose]
    change e.takeTail.releaseRun.releaseCopy.weight + _ ≤ _
    omega

/-- Of some input no more is written than what its bytes and the closing weigh. -/
theorem takeInput_spec (hv : t.signature.params.Valid) (h : Compact t e) (input : Queue) :
    Compact t (e.takeInput input).2.1 ∧ (e.takeInput input).2.1.weight ≤
      e.weight + 3 * input.content.length + t.blockLength.toNat + 112 := by
  have hpos : 0 < t.blockLength.toNat := Nat.lt_of_lt_of_le (by decide) hv.le_blockLength
  have hlong : e.index.blockLength ≠ 0 := by
    intro hz
    rw [h.index] at hz
    rw [hz] at hpos
    exact absurd hpos (by decide)
  obtain ⟨hbytes, hweight⟩ := foldl_absorb_spec hv h input.content
  simp only [takeInput, takeBytes, if_pos hlong]
  split
  · refine ⟨h, ?_⟩
    dsimp only
    omega
  · split
    · obtain ⟨e', he, hend, hweight'⟩ := endFile_spec hpos hbytes
      rw [he]
      refine ⟨hend, ?_⟩
      dsimp only
      omega
    · refine ⟨hbytes, ?_⟩
      dsimp only
      omega

/-- An encoder keeps a short run and a short window, and what a full queue and the end of the file
lead to. -/
structure Modest (t : SignatureIndex) (capacity : Nat) (e : DeltaEncoder) : Prop
    extends Compact t e where
  backlog : e.backlog.length ≤ 2 * (insertLimit + t.blockLength.toNat + capacity)

theorem modest_start (hv : t.signature.params.Valid) : Modest t capacity (start t) := by
  have hpos : 64 ≤ t.blockLength.toNat := hv.le_blockLength
  refine ⟨⟨rfl, (by decide : 0 < insertLimit), Nat.zero_le _, ?_⟩, ?_⟩
  · exact Nat.lt_of_lt_of_le (by decide : 0 < 64) (Nat.le_trans hpos (Nat.le_add_left _ _))
  · have hmark : (start t).backlog.length = 4 := by
      simp only [start, Backlog.length_append]
      rfl
    omega

theorem modest_step (hv : t.signature.params.Valid) {b : Bench DeltaEncoder}
    (h : Modest t capacity b.state) (hc : b.input.capacity ≤ capacity) :
    Modest t capacity (step b).2.state := by
  have hpour := b.state.backlog.length_pour b.output
  let poured : DeltaEncoder := { b.state with backlog := (b.state.backlog.pour b.output).1 }
  have hcompact : Compact t poured := ⟨h.index, h.run_lt, h.run_le, h.size_lt⟩
  unfold step
  dsimp only
  split
  · refine ⟨hcompact, ?_⟩
    have := h.backlog
    dsimp only
    omega
  · next hw =>
    have hnone : poured.backlog.length = 0 := by
      rw [Backlog.waits_iff, not_not] at hw
      rw [← Backlog.length_pending]
      exact List.length_eq_zero_iff.mpr hw
    obtain ⟨hs, hweight⟩ := takeInput_spec hv hcompact b.input
    have hlen := b.input.length_le_capacity
    have hlimit : insertLimit = 32768 := rfl
    have hheld : poured.pending.toList.length ≤ 1 := by
      cases poured.pending <;> simp
    have hbacklog : (poured.takeInput b.input).2.1.backlog.length ≤
        2 * (insertLimit + t.blockLength.toNat + capacity) := by
      obtain ⟨-, hrun, hle, hsize⟩ := hcompact
      simp only [weight] at hweight
      omega
    split
    · exact ⟨hs, hbacklog⟩
    · refine ⟨⟨hs.index, hs.run_lt, hs.run_le, hs.size_lt⟩, ?_⟩
      dsimp only
      rw [Backlog.length_pour]
      exact Nat.le_trans (Nat.sub_le _ _) hbacklog

/-- No input is taken while output waits. -/
theorem input_of_room_lt {b : Bench DeltaEncoder} (h : b.output.room < b.state.backlog.length) :
    (step b).2.input = b.input := by
  unfold step
  dsimp only
  rw [if_pos (Backlog.waits_of_room_lt h)]

end DeltaEncoder

/-! ## Fields that arrive in parts -/

/-- A field is topped up to the length that is asked for. -/
theorem Field.length_collect_le {f f' : Field} {q q' : Queue} {length n : Nat} {found : Option Bytes}
    (h : f.collect q length = (found, f', q')) (hn : length ≤ n) (hf : f.bytes.length ≤ n) :
    f'.bytes.length ≤ n := by
  simp only [collect, Prod.mk.injEq] at h
  rw [← h.2.1, List.length_append, Queue.length_front]
  omega

namespace Patcher

variable {β : Type} [Basis β] {n : Nat}

/-- No field is longer than a digest. -/
theorem field_move (hn : digestLength ≤ n) (s : Bench (Patcher β))
    (hs : s.state.field.bytes.length ≤ n) : (move s).left.state.field.bytes.length ≤ n := by
  obtain ⟨⟨basis, size, verify, stage, field, hasher, written⟩, input, output⟩ := s
  have hempty : Field.empty.bytes.length ≤ n := Nat.zero_le n
  -- no field is longer than a digest
  have hcollect {length : Nat} (hl : length ≤ digestLength) {found : Option Bytes} {f : Field}
      {q : Queue} (hf : field.collect input length = (found, f, q)) : f.bytes.length ≤ n :=
    Field.length_collect_le hf (Nat.le_trans hl hn) hs
  cases stage with
  | mark =>
    simp only [move, takeMark]
    split
    · next hf => exact hcollect (by decide) hf
    · next hf =>
      split
      · exact hcollect (by decide) hf
      · next hm =>
        split at hm <;> cases hm
        exact hempty
  | opcode =>
    simp only [move]
    split
    · exact hs
    · split <;> exact hs
  | copyRange =>
    simp only [move]
    split
    · next hf => exact hcollect (by decide) hf
    · split <;> exact hempty
  | copying offset remaining =>
    simp only [move]
    repeat' split
    all_goals exact hs
  | insertLength =>
    simp only [move]
    split
    · next hf => exact hcollect (by decide) hf
    · exact hempty
  | inserting remaining =>
    simp only [move]
    repeat' split
    all_goals exact hs
  | checksum =>
    simp only [move]
    split
    · next hf => exact hcollect (Nat.le_refl _) hf
    · split <;> exact hempty
  | done =>
    simp only [move]
    split <;> exact hs

theorem field_step (hn : digestLength ≤ n) (b : Bench (Patcher β))
    (hb : b.state.field.bytes.length ≤ n) : (step b).2.state.field.bytes.length ≤ n := by
  rw [snd_step]
  exact moves_keeps (P := fun s => s.state.field.bytes.length ≤ n) (field_move hn) hb

end Patcher

namespace SignatureLoader

/-- No more of the header or of a record is kept than it has bytes. -/
def Scant (l : SignatureLoader) : Prop :=
  match l.signature with
  | none => l.field.length ≤ signatureHeaderLength
  | some s => s.params.Valid ∧ l.field.length < s.params.recordLength

theorem Scant.length_le {l : SignatureLoader} (h : Scant l) : l.field.length ≤ 4 + digestLength := by
  unfold Scant at h
  split at h
  · exact Nat.le_trans h (by decide)
  · exact Nat.le_of_lt (Nat.lt_of_lt_of_le h.2 (Nat.add_le_add_left h.1.strongLength_le 4))

theorem scant_absorb {l : SignatureLoader} (h : Scant l) (bs : Bytes) : Scant (l.absorb bs).2.1 := by
  fun_induction absorb l bs with
  | case1 => exact h
  | case2 => exact h
  | case3 field done b bs hlt field' hl e he =>
    exact Nat.le_of_eq hl
  | case4 field done b bs hlt field' hl params hp ih =>
    refine ih ⟨(Signature.header_of_ofHeader hl hp).2, ?_⟩
    exact Nat.lt_of_lt_of_le (by decide : 0 < 4) (Nat.le_add_right _ _)
  | case5 field done b bs hlt field' hl ih =>
    refine ih ?_
    have hlen : field'.length = field.length + 1 := List.length_append
    change field'.length ≤ signatureHeaderLength
    omega
  | case6 field params blocks done b bs field' hl block ih =>
    refine ih ⟨h.1, ?_⟩
    exact Nat.lt_of_lt_of_le (by decide : 0 < 4) (Nat.le_add_right _ _)
  | case7 field params blocks done b bs field' hl ih =>
    have hshort : field.length < params.recordLength := h.2
    have hlen : field'.length = field.length + 1 := List.length_append
    refine ih ⟨h.1, ?_⟩
    change field'.length < params.recordLength
    omega

theorem scant_step {b : Bench SignatureLoader} (h : Scant b.state) : Scant (step b).2.state := by
  have hs := scant_absorb h b.input.content
  unfold step
  dsimp only
  split
  · exact hs
  · split
    · rcases close_cases (b.state.absorb b.input.content).2.1 with ⟨e, he⟩ | ⟨he, -⟩ <;> rw [he] <;>
        exact hs
    · exact hs

end SignatureLoader

/-! ## All transducers -/

namespace Transducer

/-- **What is kept does not grow with what passes through.** In every state that steps lead to, with
input queues of any one capacity, an emitter keeps less than one block, an encoder with a checked
signature keeps no more than the longest run, one block and one full queue, and a patcher or loader no
more than its longest field. The output that waits is bounded in the same way, since no input is taken
while there is no room for all of it. -/
theorem footprint_bounded (capacity : Nat) :
    (∀ (p : Params) (start e : SignatureEmitter), SignatureEmitter.start p = .ok start →
      Visits capacity start e →
        e.block.size < p.blockLength.toNat ∧
        e.backlog.length ≤ 12 + (capacity / p.blockLength.toNat + 2) * (4 + p.strongLength.toNat)) ∧
    (∀ (t : SignatureIndex) (e : DeltaEncoder), t.signature.params.check = .ok () →
      Visits capacity (.start t) e →
        e.buffer.size ≤ insertLimit + t.blockLength.toNat + capacity ∧
        e.backlog.length ≤ 2 * (insertLimit + t.blockLength.toNat + capacity)) ∧
    (∀ (β : Type) [Basis β] (basis : β) (verify : Bool) (start p : Patcher β),
      Patcher.start basis verify = .ok start → Visits capacity start p → p.field.bytes.length ≤ 36) ∧
    (∀ l : SignatureLoader, Visits capacity .start l → l.field.length ≤ 36) ∧
    (∀ b : Bench SignatureEmitter, b.output.room < b.state.backlog.length →
      (step b).2.input = b.input) ∧
    (∀ b : Bench DeltaEncoder, b.output.room < b.state.backlog.length →
      (step b).2.input = b.input) := by
  refine ⟨?_, ?_, ?_, ?_, ?_, ?_⟩
  · intro p start e hstart hvisits
    obtain ⟨hv, hmodest⟩ := SignatureEmitter.modest_start hstart
    have he := hvisits.induct hmodest fun b => SignatureEmitter.modest_step hv
    exact ⟨he.short, he.backlog⟩
  · intro t e hcheck hvisits
    have hv := (Params.check_iff _).mp hcheck
    have he := hvisits.induct (DeltaEncoder.modest_start hv) fun b => DeltaEncoder.modest_step hv
    have hlt := he.run_lt
    have hsize := he.size_lt
    exact ⟨by omega, he.backlog⟩
  · intro β _ basis verify start p hstart hvisits
    refine hvisits.induct (P := fun p => p.field.bytes.length ≤ 36) ?_ fun b hb _ => ?_
    · obtain ⟨size, -, rfl⟩ := Patcher.start_eq hstart
      exact Nat.zero_le 36
    · exact Patcher.field_step (by decide) b hb
  · intro l hvisits
    refine (hvisits.induct (P := SignatureLoader.Scant) ?_ fun b hb _ => ?_).length_le
    · exact Nat.zero_le _
    · exact SignatureLoader.scant_step hb
  · intro b h
    exact SignatureEmitter.input_of_room_lt h
  · intro b h
    exact DeltaEncoder.input_of_room_lt h

/-- A file of three bytes, all of which arrive before the one step of each transducer; and a queue with
less room than a mark takes. -/
theorem footprint_bounded_bytes :
    let p : Params := ⟨64, 4⟩
    let t : SignatureIndex := .ofSignature ⟨p, #[]⟩
    let input : Queue := ((Queue.ofCapacity 3).append [1, 2, 3]).finish
    let output : Queue := .ofCapacity 12
    let narrow : Queue := .ofCapacity 3
    let encoder : DeltaEncoder := (step ⟨.start t, input, output⟩).2.state
    let loader : SignatureLoader := (step ⟨.start, input, output⟩).2.state
    ∃ (start emitter : SignatureEmitter) (initial patcher : Patcher StoredBasis),
      SignatureEmitter.start p = .ok start ∧ Visits 3 start emitter ∧
      (emitter.block.size < p.blockLength.toNat ∧
        emitter.backlog.length ≤ 12 + (3 / p.blockLength.toNat + 2) * (4 + p.strongLength.toNat)) ∧
      p.check = .ok () ∧ Visits 3 (.start t) encoder ∧
      (encoder.buffer.size ≤ insertLimit + t.blockLength.toNat + 3 ∧
        encoder.backlog.length ≤ 2 * (insertLimit + t.blockLength.toNat + 3)) ∧
      Patcher.start ⟨#[7]⟩ true = .ok initial ∧ Visits 3 initial patcher ∧
      patcher.field.bytes.length ≤ 36 ∧
      Visits 3 .start loader ∧ loader.field.length ≤ 36 ∧
      narrow.room < start.backlog.length ∧ (step ⟨start, input, narrow⟩).2.input = input ∧
      narrow.room < (DeltaEncoder.start t).backlog.length ∧
      (step ⟨DeltaEncoder.start t, input, narrow⟩).2.input = input := by
  intro p t input output narrow encoder loader
  obtain ⟨hemitter, hencoder, hpatcher, hloader, hwaits, hwaits'⟩ := footprint_bounded 3
  have hcapacity : input.capacity ≤ 3 := by decide
  have hvisits {τ : Type} [Transducer τ] (start : τ) :
      Visits 3 start (step ⟨start, input, output⟩).2.state := .step .start hcapacity
  have hheader : narrow.room < (Backlog.empty.append p.header).length := by decide
  have hmark : narrow.room < (DeltaEncoder.start t).backlog.length := by decide
  exact ⟨_, _, _, _, rfl, hvisits _, hemitter p _ _ rfl (hvisits _), rfl, hvisits _,
    hencoder t _ rfl (hvisits _), rfl, hvisits _, hpatcher _ _ _ _ _ rfl (hvisits _), hvisits _,
    hloader _ (hvisits _), hheader, hwaits ⟨_, input, narrow⟩ hheader, hmark,
    hwaits' ⟨_, input, narrow⟩ hmark⟩

end Transducer

end BlockSync
