import Mathlib
import BlockSync.Proofs.Delta.Encoding

/-!
# The books of an encoder

What an encoder has copied, holds back, has inserted and still has in its buffer are together the
bytes that it has taken.

* `DeltaEncoder.Books`: the totals account for all bytes that were taken;
* **`DeltaEncoder.books_absorb`**, **`DeltaEncoder.account_endFile`**: they do when a byte arrives, and
  when the file ends;
* **`DeltaEncoder.account_of_schedule`**: they do after any schedule;
* `DeltaEncoder.sent_of_schedule`: and no more counts as passed on than was put out.
-/

namespace BlockSync

namespace DeltaEncoder

variable {s : Signature} {e : DeltaEncoder} {n : Nat}

/-- How many bytes the copy that is held back stands for. -/
def heldLength (e : DeltaEncoder) : Nat := e.pending.elim 0 fun c => c.length.toNat

/-- The totals account for the `n` bytes that were taken, and a copy that is held back stands for some
bytes within any basis. -/
structure Books (e : DeltaEncoder) (n : Nat) : Prop where
  balance : e.totals.copied + e.heldLength + e.totals.inserted + e.buffer.size = n
  copies : e.totals.copies ≤ e.totals.copied
  inserts : e.totals.inserts ≤ e.totals.inserted
  held : ∀ c, e.pending = some c → 0 < c.length.toNat ∧ c.offset.toNat < 2 ^ 48

theorem heldLength_of_some {c : PendingCopy} (h : e.pending = some c) :
    e.heldLength = c.length.toNat := by
  rw [heldLength, h]
  rfl

theorem heldLength_of_none (h : e.pending = none) : e.heldLength = 0 := by
  rw [heldLength, h]
  rfl

/-! ## Issuing instructions -/

theorem books_releaseCopy (h : Books e n) : Books e.releaseCopy n := by
  have hbalance := h.balance
  have hcopies := h.copies
  unfold releaseCopy
  split
  · exact h
  · next c hc =>
    have hpos := (h.held c hc).1
    rw [heldLength_of_some hc] at hbalance
    refine ⟨?_, ?_, h.inserts, nofun⟩
    · rw [heldLength_of_none rfl]
      simp only [issue, DeltaTotals.add]
      omega
    · simp only [issue, DeltaTotals.add]
      omega

theorem books_copy (h : Books e n) {c : PendingCopy} (hpos : 0 < c.length.toNat)
    (ho : c.offset.toNat < 2 ^ 48) : Books (e.copy c) (n + c.length.toNat) := by
  have hbalance := h.balance
  have hrelease := books_releaseCopy h
  have hnone := heldLength_of_none (pending_releaseCopy e)
  have hheld : Books { e.releaseCopy with pending := some c } (n + c.length.toNat) := by
    have hb := hrelease.balance
    rw [hnone] at hb
    refine ⟨?_, hrelease.copies, hrelease.inserts, fun d hd => ?_⟩
    · rw [heldLength_of_some rfl]
      dsimp only
      omega
    · cases hd
      exact ⟨hpos, ho⟩
  unfold copy
  cases hp : e.pending with
  | none => exact hheld
  | some p =>
    cases hm : p.merge? c with
    | none => simpa only [Option.bind_some, hm] using hheld
    | some m =>
      simp only [Option.bind_some, hm]
      unfold PendingCopy.merge? at hm
      split at hm
      · next hc =>
        cases hm
        have hsum : (p.length + c.length).toNat = p.length.toNat + c.length.toNat := by
          rw [UInt32.toNat_add]
          exact Nat.mod_eq_of_lt hc.2
        have hheld := h.held p hp
        rw [heldLength_of_some hp] at hbalance
        refine ⟨?_, h.copies, h.inserts, fun d hd => ?_⟩
        · rw [heldLength_of_some rfl, hsum]
          dsimp only
          omega
        · cases hd
          exact ⟨by rw [hsum]; omega, hheld.2⟩
      · cases hm

/-- The run leaves the buffer. -/
theorem books_insert (h : Books e n) (hnone : e.pending = none) (hpos : 0 < e.run)
    (hr : e.run ≤ e.buffer.size) :
    Books ({ e with buffer := e.buffer.extract e.run e.buffer.size, run := 0 }.issue
      (.insert (slice e.buffer 0 e.run))) n := by
  have hbalance := h.balance
  have hinserts := h.inserts
  have hlen : (slice e.buffer 0 e.run).length = e.run := by
    rw [length_slice]
    omega
  rw [heldLength_of_none hnone] at hbalance
  refine ⟨?_, h.copies, ?_, h.held⟩
  · rw [heldLength_of_none (by exact hnone)]
    simp only [issue, DeltaTotals.add, hlen, Array.size_extract]
    omega
  · simp only [issue, DeltaTotals.add, hlen]
    omega

theorem buffer_releaseCopy (e : DeltaEncoder) :
    e.releaseCopy.buffer = e.buffer ∧ e.releaseCopy.run = e.run := by
  unfold releaseCopy
  split <;> exact ⟨rfl, rfl⟩

theorem books_releaseRun (h : Books e n) (hr : e.run ≤ e.buffer.size) : Books e.releaseRun n := by
  obtain ⟨hbuffer, hrun⟩ := buffer_releaseCopy e
  unfold releaseRun
  by_cases hz : e.run = 0
  · rw [if_pos hz]
    exact h
  · rw [if_neg hz]
    exact books_insert (books_releaseCopy h) (pending_releaseCopy e) (by omega)
      (by rw [hrun, hbuffer]; exact hr)

/-! ## Moving the window -/

theorem books_receive (h : Books e n) (b : UInt8) : Books (e.receive b) (n + 1) := by
  have hbalance := h.balance
  refine ⟨?_, h.copies, h.inserts, h.held⟩
  have hheld : (e.receive b).heldLength = e.heldLength := rfl
  rw [hheld]
  simp only [receive, Array.size_push]
  omega

theorem books_extendRun (h : Books e n) (hr : e.run < e.buffer.size) : Books e.extendRun n := by
  have hmoved : Books { e with run := e.run + 1 } n := ⟨h.balance, h.copies, h.inserts, h.held⟩
  unfold extendRun
  dsimp only
  split
  · exact books_releaseRun hmoved hr
  · exact hmoved

theorem books_takeByte (h : Books e n) (hr : e.run < e.buffer.size) (sum : RollingSum) :
    Books (e.takeByte sum) n :=
  books_extendRun (e := { e with last := some (sum, e.buffer.getD e.run 0) })
    ⟨h.balance, h.copies, h.inserts, h.held⟩ hr

/-- Where a block of the basis begins. -/
theorem toNat_offset (b : BlockSum) {blockLength : UInt32} (h : blockLength.toNat ≤ 65536) :
    (b.index.toUInt64 * blockLength.toUInt64).toNat = b.index.toNat * blockLength.toNat ∧
      b.index.toNat * blockLength.toNat < 2 ^ 48 := by
  have hi := b.index.toNat_lt
  have hlt : b.index.toNat * blockLength.toNat < 2 ^ 48 :=
    Nat.lt_of_le_of_lt (Nat.mul_le_mul (Nat.le_of_lt_succ hi) h) (by decide)
  refine ⟨?_, hlt⟩
  rw [UInt64.toNat_mul, UInt32.toNat_toUInt64, UInt32.toNat_toUInt64]
  omega

/-- A window that is taken whole. -/
theorem books_clear {window : Bytes} (h : Books e n) (hs : e.Shows [] window) :
    Books { e with buffer := #[], run := 0, last := none } (n - window.length) := by
  have hbalance := h.balance
  have hsize := hs.size_eq
  rw [List.length_nil, Nat.zero_add] at hsize
  have hheld : ({ e with buffer := #[], run := 0, last := none } : DeltaEncoder).heldLength =
      e.heldLength := rfl
  refine ⟨?_, h.copies, h.inserts, h.held⟩
  rw [hheld]
  dsimp only
  rw [Array.size_empty]
  omega

theorem books_takeBlock {run window : Bytes} (h : Books e n) (hs : e.Shows run window)
    (hne : window ≠ []) (hlen : window.length < 2 ^ 32)
    (hx : e.index.blockLength.toNat ≤ 65536) (b : BlockSum) : Books (e.takeBlock b) n := by
  have hsize := hs.size_sub
  have hpos := List.length_pos_iff.mpr hne
  have hle : window.length ≤ n := by
    have := h.balance
    omega
  have hr := books_releaseRun h (by omega)
  obtain ⟨hs', -, -⟩ := issued_releaseRun hs
  have hcount : (UInt32.ofNat (e.buffer.size - e.run)).toNat = window.length := by
    rw [hsize]
    exact UInt32.toNat_ofNat_of_lt' hlen
  obtain ⟨hoffset, hlt⟩ := toNat_offset b hx
  have hcopy := books_copy (books_clear hr hs') (c := ⟨b.index.toUInt64 * e.index.blockLength.toUInt64,
    UInt32.ofNat (e.buffer.size - e.run)⟩) (by rw [hcount]; exact hpos) (by rw [hoffset]; exact hlt)
  rw [hcount, Nat.sub_add_cancel hle] at hcopy
  exact hcopy

/-! ## Taking the file -/

/-- **The books balance when a byte arrives.** -/
theorem books_absorb (hp : s.params.Valid) {run window : Bytes} (h : Stands s e run window)
    (hb : Books e n) (b : UInt8) : Books (e.absorb b) (n + 1) := by
  rcases Nat.lt_or_ge (window.length + 1) s.blockLength with hlt | hge
  · rw [(moves_receive h hlt).1]
    exact books_receive hb b
  · have hf : window.length + 1 = s.blockLength := Nat.le_antisymm h.short hge
    have hs := shows_receive h.toShows b
    have hlen : (window ++ [b]).length = s.blockLength := by rw [List.length_append]; exact hf
    have hle : s.blockLength ≤ 65536 := hp.blockLength_le
    rw [absorb_of_full h hf]
    cases s.find? (window ++ [b]) with
    | some block =>
      refine books_takeBlock (books_receive hb b) hs (by simp) (by omega) ?_ block
      have hx : (e.receive b).index = .ofSignature s := h.index
      rw [hx]
      exact hp.blockLength_le
    | none =>
      refine books_takeByte (books_receive hb b) ?_ _
      have := hs.size_sub
      omega

/-- A run is inserted before it is longer than the limit. -/
theorem run_absorb {run window : Bytes} (h : Stands s e run window) (hr : e.run < insertLimit)
    (b : UInt8) : (e.absorb b).run < insertLimit := by
  rcases Nat.lt_or_ge (window.length + 1) s.blockLength with hlt | hge
  · rw [(moves_receive h hlt).1]
    exact hr
  · have hf : window.length + 1 = s.blockLength := Nat.le_antisymm h.short hge
    have hs := shows_receive h.toShows b
    rw [absorb_of_full h hf]
    cases s.find? (window ++ [b]) with
    | some block =>
      obtain ⟨hs', -, -⟩ := issued_takeBlock hs h.index block
      rw [hs'.length]
      exact (by decide : 0 < insertLimit)
    | none =>
      have hrun : (e.receive b).run = e.run := rfl
      dsimp only [takeByte, extendRun]
      by_cases hl : insertLimit ≤ (e.receive b).run + 1
      · rw [if_pos hl, releaseRun, if_neg (Nat.succ_ne_zero _)]
        exact (by decide : 0 < insertLimit)
      · rw [if_neg hl]
        exact Nat.lt_of_not_le hl

/-- The books balance, and the run is not long. -/
structure Account (e : DeltaEncoder) (n : Nat) : Prop extends Books e n where
  run : e.run < insertLimit

theorem account_start (t : SignatureIndex) : Account (start t) 0 where
  balance := rfl
  copies := Nat.le_refl _
  inserts := Nat.le_refl _
  held := nofun
  run := (by decide : 0 < insertLimit)

theorem account_foldl (hp : s.params.Valid) {run window : Bytes} (h : Stands s e run window)
    (ha : Account e n) (bs : Bytes) : Account (bs.foldl absorb e) (n + bs.length) := by
  induction bs generalizing e run window n with
  | nil => exact ha
  | cons b bs ih =>
    obtain ⟨run', window', h'⟩ := (absorb_moves h b).1
    have := ih h' ⟨books_absorb hp h ha.toBooks b, run_absorb h ha.run b⟩
    rw [List.length_cons, show n + (bs.length + 1) = n + 1 + bs.length by omega]
    exact this

theorem books_takeTail (hp : s.params.Valid) {run window : Bytes} (h : Stands s e run window)
    (hb : Books e n) : Books e.takeTail n := by
  have hrun : Books { e with run := e.buffer.size } n := ⟨hb.balance, hb.copies, hb.inserts, hb.held⟩
  have hle : s.blockLength ≤ 65536 := hp.blockLength_le
  have hlt := h.short
  unfold takeTail
  rw [h.window_eq]
  by_cases hw : window = []
  · subst hw
    exact hrun
  · have hne : window.isEmpty = false := by simpa using hw
    rw [hne, if_neg Bool.false_ne_true]
    cases e.index.find? (RollingSum.ofBytes window).packed window with
    | none => exact hrun
    | some block =>
      refine books_takeBlock hb h.toShows hw (by omega) ?_ block
      rw [h.index]
      exact hp.blockLength_le

/-- When the file ends nothing is left in the buffer. -/
theorem endFile_shows {run window : Bytes} (h : Stands s e run window) :
    e.takeTail.releaseRun.releaseCopy.Shows [] [] ∧ e.takeTail.run ≤ e.takeTail.buffer.size := by
  obtain ⟨run', hs, -⟩ := issued_takeTail h
  obtain ⟨hs', -, -⟩ := issued_releaseRun hs
  exact ⟨shows_releaseCopy hs', hs.run_le⟩

/-- **The books balance when the file ends.** -/
theorem account_endFile (hp : s.params.Valid) {run window : Bytes} (h : Stands s e run window)
    (ha : Account e n) : Account e.endFile.2 n := by
  obtain ⟨hs, hr⟩ := endFile_shows h
  have hb := books_releaseCopy (books_releaseRun (books_takeTail hp h ha.toBooks) hr)
  rw [endFile_eq h.run_le]
  refine ⟨⟨hb.balance, hb.copies, hb.inserts, hb.held⟩, ?_⟩
  change e.takeTail.releaseRun.releaseCopy.run < insertLimit
  rw [hs.length]
  exact (by decide : 0 < insertLimit)

/-! ## Schedules -/

theorem takeInput_of_stands {run window : Bytes} (h : Stands s e run window) (input : Queue) :
    e.takeInput input = if input.ended then
        ((input.content.foldl absorb e).endFile.1, (input.content.foldl absorb e).endFile.2,
          input.drop input.length)
      else (.ok (), input.content.foldl absorb e, input.drop input.length) := by
  rw [takeInput, if_neg (by simp [h.finished]), takeBytes_of_stands h]
  dsimp only
  rw [Queue.atEnd_drop_length]

theorem account_takeInput (hp : s.params.Valid) {b : Bench DeltaEncoder} (hw : Works s b)
    (ha : Account b.state n) :
    ∃ m, Account (b.state.takeInput b.input).2.1 (n + m) ∧
      m + (b.state.takeInput b.input).2.2.content.length = b.input.content.length := by
  cases hf : b.state.finished with
  | true =>
    rw [takeInput, if_pos hf]
    exact ⟨0, ha, Nat.zero_add _⟩
  | false =>
    obtain ⟨run, window, h⟩ := hw.stands hf
    obtain ⟨⟨run', window', h'⟩, -⟩ := foldl_absorb_moves h b.input.content
    have hfold := account_foldl hp h ha b.input.content
    refine ⟨b.input.content.length, ?_, ?_⟩
    · rw [takeInput_of_stands h]
      split
      · exact account_endFile hp h' hfold
      · exact hfold
    · rw [takeInput_of_stands h]
      split
      · rw [Queue.content_drop_length]
        rfl
      · rw [Queue.content_drop_length]
        rfl

/-- **The books balance after any schedule**, for what was fed and has been taken. -/
theorem account_of_schedule (hp : s.params.Valid) {fed taken : Bytes}
    {result : Except Failure Status} {b : Bench DeltaEncoder}
    (h : Schedule (start (.ofSignature s)) fed taken result b) :
    ∃ n, Account b.state n ∧ n + b.input.content.length = fed.length := by
  have hpos : 0 < s.blockLength := Nat.lt_of_lt_of_le (by decide) hp.le_blockLength
  induction h with
  | start hi _ =>
    refine ⟨0, account_start _, ?_⟩
    rw [hi]
    rfl
  | served _ hv ih =>
    obtain ⟨n, ha, hn⟩ := ih
    refine ⟨n, hv.state ▸ ha, ?_⟩
    rw [hv.input, List.length_append, List.length_append, ← hn, Nat.add_assoc]
  | @stepped _ _ _ _ b c hsched hstep ih =>
    obtain ⟨n, ha, hn⟩ := ih
    have hfit : Works s b := Schedule.fit (lawful s).sound (tells_start hpos) hsched
    have hpoured : Account ((backlogged s).poured b).state n :=
      ⟨⟨ha.balance, ha.copies, ha.inserts, ha.held⟩, ha.run⟩
    have hc : c = (step b).2 := by rw [show step b = _ from hstep]
    subst hc
    by_cases hw : (backlogged s).pending ((backlogged s).poured b).state = []
    · obtain ⟨e', input, ht, -⟩ := takeInput_takes (works_poured hfit)
      obtain ⟨m, ha', hm⟩ := account_takeInput hp (works_poured hfit) hpoured
      rw [ht] at ha' hm
      rw [step_of_poured hw ht]
      refine ⟨n + m, ⟨⟨ha'.balance, ha'.copies, ha'.inserts, ha'.held⟩, ha'.run⟩, ?_⟩
      change m + input.content.length = b.input.content.length at hm
      change n + m + input.content.length = _
      omega
    · rw [step_of_waiting hw]
      exact ⟨n, hpoured, hn⟩

/-! ## What has been passed on -/

@[simp] theorem sent_issue (e : DeltaEncoder) (i : Instruction) :
    (e.issue i).backlog.sent = e.backlog.sent := rfl

@[simp] theorem sent_releaseCopy (e : DeltaEncoder) : e.releaseCopy.backlog.sent = e.backlog.sent := by
  unfold releaseCopy
  split <;> rfl

@[simp] theorem sent_copy (e : DeltaEncoder) (c : PendingCopy) :
    (e.copy c).backlog.sent = e.backlog.sent := by
  unfold copy
  split
  · rfl
  · exact sent_releaseCopy e

@[simp] theorem sent_releaseRun (e : DeltaEncoder) : e.releaseRun.backlog.sent = e.backlog.sent := by
  unfold releaseRun
  split
  · rfl
  · exact sent_releaseCopy e

@[simp] theorem sent_takeBlock (e : DeltaEncoder) (b : BlockSum) :
    (e.takeBlock b).backlog.sent = e.backlog.sent := by
  simp [takeBlock]

@[simp] theorem sent_takeByte (e : DeltaEncoder) (sum : RollingSum) :
    (e.takeByte sum).backlog.sent = e.backlog.sent := by
  unfold takeByte extendRun
  dsimp only
  split
  · exact sent_releaseRun _
  · rfl

@[simp] theorem sent_absorb (e : DeltaEncoder) (b : UInt8) :
    (e.absorb b).backlog.sent = e.backlog.sent := by
  have hr : (e.receive b).backlog.sent = e.backlog.sent := rfl
  unfold absorb
  dsimp only
  repeat' split
  all_goals simp only [sent_takeBlock, sent_takeByte, hr]

@[simp] theorem sent_foldl_absorb (e : DeltaEncoder) (bs : Bytes) :
    (bs.foldl absorb e).backlog.sent = e.backlog.sent := by
  induction bs generalizing e with
  | nil => rfl
  | cons b bs ih => rw [List.foldl_cons, ih, sent_absorb]

@[simp] theorem sent_takeTail (e : DeltaEncoder) : e.takeTail.backlog.sent = e.backlog.sent := by
  unfold takeTail
  split
  · exact sent_takeBlock e _
  · rfl

theorem sent_endFile {run window : Bytes} (h : Stands s e run window) :
    e.endFile.2.backlog.sent = e.backlog.sent := by
  rw [endFile_eq h.run_le]
  simp only [sent_issue, sent_releaseCopy, sent_releaseRun, sent_takeTail]

/-- Nothing is passed on while input is taken. -/
theorem sent_takeInput {b : Bench DeltaEncoder} (hw : Works s b) :
    (b.state.takeInput b.input).2.1.backlog.sent = b.state.backlog.sent := by
  cases hf : b.state.finished with
  | true => rw [takeInput, if_pos hf]
  | false =>
    obtain ⟨run, window, h⟩ := hw.stands hf
    obtain ⟨⟨run', window', h'⟩, -⟩ := foldl_absorb_moves h b.input.content
    rw [takeInput_of_stands h, ← sent_foldl_absorb b.state b.input.content]
    split
    · exact sent_endFile h'
    · rfl

/-- What a backlog has passed on fits where its output went. -/
theorem sent_pour {b : Backlog} {q : Queue} {n : Nat} (h : b.sent ≤ n + q.content.length) :
    b.sent + min b.length q.room ≤ n + (b.pour q).2.content.length ∧
      (b.pour q).1.sent ≤ n + (b.pour q).2.content.length := by
  have hout : (b.pour q).2.content.length = q.content.length + min b.length q.room := by
    rw [(b.pour_eq q).1, List.length_append, List.length_take, b.length_pending, Nat.min_comm]
  refine ⟨by omega, ?_⟩
  rw [hout, Backlog.pour, Backlog.drop]
  dsimp only
  split
  · dsimp only
    omega
  · exact Nat.zero_le _

/-- No more counts as passed on than was put out. -/
theorem sent_of_schedule (hpos : 0 < s.blockLength) {fed taken : Bytes}
    {result : Except Failure Status} {b : Bench DeltaEncoder}
    (h : Schedule (start (.ofSignature s)) fed taken result b) :
    b.state.backlog.sent ≤ taken.length + b.output.content.length := by
  induction h with
  | start => exact Nat.zero_le _
  | served _ hv ih =>
    rw [hv.output, List.length_append] at ih
    rw [hv.state, List.length_append]
    omega
  | @stepped _ _ _ _ b c hsched hstep ih =>
    have hfit : Works s b := Schedule.fit (lawful s).sound (tells_start hpos) hsched
    have hc : c = (step b).2 := by rw [show step b = _ from hstep]
    subst hc
    have hpour := (sent_pour ih).2
    by_cases hw : (backlogged s).pending ((backlogged s).poured b).state = []
    · obtain ⟨e', input, ht, -⟩ := takeInput_takes (works_poured hfit)
      have hsent := sent_takeInput (works_poured hfit)
      rw [ht] at hsent
      rw [step_of_poured hw ht]
      exact (sent_pour (Nat.le_trans (Nat.le_of_eq hsent) hpour)).2
    · rw [step_of_waiting hw]
      exact hpour

end DeltaEncoder

end BlockSync
