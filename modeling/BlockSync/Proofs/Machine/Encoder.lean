import BlockSync.Proofs.Machine.Scanner

/-!
# Encoding on the machine

* `DeltaEncoder.scanner`: an encoder on the machine;
* **`Scanner.scan_eq`**: a scan absorbs all that has arrived, and traps at nothing, whatever the file
  and the signature;
* **`Scanner.finish_eq`**: nor does the end of the file;
* **`DeltaEncoder.implements`**: the encoder on the machine does what the encoder does.
-/

namespace BlockSync

open Machine

/-- An encoder on the machine: no window is full between two steps, hence no checksum is known. -/
def DeltaEncoder.scanner (e : DeltaEncoder) : Scanner where
  table := .ofSignature e.index.signature
  buffer := e.buffer
  runStart := 0
  pos := e.run
  rolling := none
  issuer := e.issuer
  hasher := e.hasher
  finished := e.finished

/-- A delta against a signature, which is indexed for that. -/
def Scanner.start (s : Signature) : Scanner where
  table := .ofSignature s
  buffer := #[]
  runStart := 0
  pos := 0
  rolling := none
  issuer := ⟨none, Outbox.append ⟨#[], 0⟩ deltaMark, .zero⟩
  hasher := .empty
  finished := false

namespace Scanner

variable {s : Signature} {m : Scanner} {e : DeltaEncoder} {n : Nat} {run window rest : Bytes}

/-! ## Scans -/

/-- The last of a scan: the buffer holds what the encoder's does. -/
theorem trim_eq (h : Tracks s m e []) (hx : e.index = .ofSignature s) (hf : e.finished = false)
    (hr : m.rolling = none) : m.trim = .ok e.scanner := by
  have hpos := h.pos
  have htable : m.table = .ofSignature e.index.signature := by
    rw [hx]
    exact h.table
  have hbuffer := h.buffer
  rw [List.append_nil] at hbuffer
  have hall : (⟨m.table, e.buffer, 0, e.run, m.rolling, m.issuer, m.hasher, m.finished⟩ : Scanner) =
      e.scanner := by
    rw [htable, hr, h.issuer, h.hasher, h.finished, ← hf]
    rfl
  unfold trim
  by_cases hz : 0 < m.runStart
  · have hextract : m.buffer.extract m.runStart m.buffer.size = e.buffer := by
      refine Array.toList_inj.mp ?_
      rw [Array.toList_extract, List.extract_eq_take_drop, ← Array.length_toList, ← List.length_drop,
        List.take_length, hbuffer]
    rw [if_pos hz, within_of_le h.runStart, bind_ok, sub_of_le (by omega), bind_ok, hextract, hpos,
      Nat.add_sub_cancel_left, ← hall]
    rfl
  · have hzero : m.runStart = 0 := Nat.eq_zero_of_not_pos hz
    rw [hzero, List.drop_zero] at hbuffer
    rw [hzero, Nat.zero_add] at hpos
    rw [if_neg hz, ← hall, ← Array.toList_inj.mp hbuffer, ← hpos, ← hzero]
    rfl

/-- **A scan absorbs all that has arrived**, and nothing traps. -/
theorem scan_eq (hp : s.params.Valid) (h : Tracks s m e rest)
    (hst : DeltaEncoder.Stands s e run window) (hroll : Rolls m) (ha : e.Account n)
    (hn : n + rest.length < 2 ^ 64) {fuel : Nat} (hfuel : rest.length < fuel) :
    m.scan fuel = .ok (rest.foldl DeltaEncoder.absorb e).scanner := by
  -- on the fuel: each look is at a window that some of the bytes have filled
  induction fuel generalizing m e run window rest n with
  | zero => omega
  | succ fuel ih =>
    have hle : s.blockLength ≤ 65536 := hp.blockLength_le
    have hshort := hst.short
    have hlength := h.blockLength_eq
    have hsize := h.pos_eq hst.toShows
    have hmost := h.size
    have hback : m.pos + m.blockLength < 2 ^ 64 := by omega
    rw [scan, add_of_lt hback, bind_ok]
    by_cases hfull : m.pos + m.blockLength ≤ m.buffer.size
    · rw [if_pos hfull]
      obtain ⟨k, hk⟩ : ∃ k, s.blockLength - window.length = k := ⟨_, rfl⟩
      have htake : (rest.take k).length = k := List.length_take_of_le (by omega)
      have hsplit : rest.take k ++ rest.drop k = rest := List.take_append_drop k rest
      have hne : rest.take k ≠ [] := List.ne_nil_of_length_pos (by omega)
      have htracks : Tracks s m e (rest.take k ++ rest.drop k) := by
        rw [hsplit]
        exact h
      obtain ⟨m', hlook, htracks', hroll'⟩ := look_spec hp htracks hst hne (by omega) hroll ha.toBooks
        (by omega)
      obtain ⟨⟨run', window', hst'⟩, -⟩ := DeltaEncoder.foldl_absorb_moves hst (rest.take k)
      have hrest := ih htracks' hst' hroll' (DeltaEncoder.account_foldl hp hst ha (rest.take k))
        (by rw [List.length_drop]; omega) (by rw [List.length_drop]; omega)
      rw [← List.foldl_append, hsplit] at hrest
      rw [hlook, bind_ok]
      exact hrest
    · rw [if_neg hfull]
      have htracks := h.receive (List.append_nil rest).symm
      have hr : m.rolling = none := by
        cases hc : m.rolling with
        | none => rfl
        | some sum => exact absurd (hroll sum hc).1 hfull
      rw [DeltaEncoder.foldl_absorb_of_short hst (by omega)]
      refine trim_eq htracks ?_ ?_ hr
      · rw [DeltaEncoder.foldl_receive]
        exact hst.index
      · rw [DeltaEncoder.foldl_receive]
        exact hst.finished

/-- Between two steps nothing is left to look at. -/
theorem tracks_scanner (hst : DeltaEncoder.Stands s e run window) (hsize : e.buffer.size < 2 ^ 32) :
    Tracks s e.scanner e [] where
  table := by
    rw [DeltaEncoder.scanner, hst.index]
    rfl
  buffer := (List.append_nil _).symm
  runStart := Nat.zero_le _
  pos := (Nat.zero_add _).symm
  issuer := rfl
  hasher := rfl
  finished := hst.finished
  size := hsize

theorem size_lt (hp : s.params.Valid) (hst : DeltaEncoder.Stands s e run window) (ha : e.Account n) :
    e.buffer.size < insertLimit + 65536 := by
  have hle : s.blockLength ≤ 65536 := hp.blockLength_le
  have hshort := hst.short
  have hr := ha.run
  rw [hst.length] at hr
  rw [hst.size_eq]
  omega

/-- All input is absorbed. -/
theorem receive_eq (hp : s.params.Valid) (hst : DeltaEncoder.Stands s e run window) (ha : e.Account n)
    {input : Queue} (hcap : input.capacity ≤ framePayloadLimit)
    (hn : n + input.content.length < 2 ^ 64) :
    e.scanner.receive input.buffer = .ok ((input.content.foldl DeltaEncoder.absorb e).scanner,
      (input.drop input.length).buffer) := by
  have hlt : input.capacity < 2 ^ 64 := Nat.lt_of_le_of_lt hcap (by decide)
  unfold receive
  by_cases he : input.isEmpty = true
  · have hnil := input.isEmpty_iff.mp he
    have hz : input.length = 0 := by
      rw [← input.length_content, hnil]
      rfl
    rw [if_pos (by exact he), hnil, hz, Queue.drop_zero]
    rfl
  · have hsize := size_lt hp hst ha
    have hlength : input.content.length ≤ framePayloadLimit := by
      have := input.room_add_length
      rw [input.length_content]
      omega
    have hlimit : insertLimit + 65536 + framePayloadLimit < 2 ^ 32 := by
      unfold insertLimit framePayloadLimit
      omega
    let received : Scanner := { e.scanner with
      hasher := e.hasher.update input.content
      buffer := e.buffer ++ input.content }
    have hreceived : Tracks s received e input.content := by
      have h := tracks_scanner hst
        (Nat.lt_trans hsize (Nat.lt_of_le_of_lt (Nat.le_add_right _ _) hlimit))
      refine ⟨h.table, ?_, Nat.zero_le _, h.pos, rfl, rfl, h.finished, ?_⟩
      · simp only [received, Array.toList_appendList]
        rfl
      · simp only [received, size_append_bytes]
        omega
    have hfuel : input.content.length < received.buffer.size + 1 := by
      simp only [received, size_append_bytes]
      omega
    have hscan := scan_eq hp hreceived hst nofun ha hn hfuel
    rw [if_neg (by exact he), Queue.buffer_data hlt, bind_ok]
    simp only [input.length_content, Queue.buffer_consume hlt (Nat.le_refl _), bind_ok]
    change (received.scan (received.buffer.size + 1) >>= _) = _
    rw [hscan]
    rfl

/-! ## The end of the file -/

/-- The tail is taken whole or joins the run. -/
theorem takeTail_spec (hp : s.params.Valid) (hst : DeltaEncoder.Stands s e run window)
    (ha : e.Account n) (hn : n < 2 ^ 64) :
    ∃ m, e.scanner.takeTail = .ok m ∧ m.rolling = none ∧
      Tracks s { m with pos := m.buffer.size } e.takeTail [] := by
  have hle : s.blockLength ≤ 65536 := hp.blockLength_le
  have hshort := hst.short
  have hmost := size_lt hp hst ha
  have hlimit : insertLimit + 65536 < 2 ^ 32 := by
    unfold insertLimit
    omega
  have h := tracks_scanner hst (Nat.lt_trans hmost hlimit)
  have hsize := h.pos_eq hst.toShows
  rw [List.length_nil, Nat.add_zero] at hsize
  have hrange : range e.scanner.buffer e.scanner.pos e.scanner.buffer.size = .ok window := by
    rw [← hsize]
    exact range_of_drop (by omega) (h.drop_pos hst.toShows)
  have hjoin : Tracks s { e.scanner with pos := e.scanner.buffer.size } { e with run := e.buffer.size }
      [] :=
    ⟨h.table, h.buffer, h.runStart, (Nat.zero_add _).symm, h.issuer, h.hasher, h.finished, h.size⟩
  have hfind := BlockTable.find?_eq s (RollingSum.ofBytes window).packed window
  rw [← h.table, ← hst.index] at hfind
  unfold takeTail DeltaEncoder.takeTail
  rw [hrange, bind_ok, hst.window_eq]
  by_cases hw : window = []
  · subst hw
    exact ⟨_, rfl, rfl, hjoin⟩
  · have hne : window.isEmpty = false := by simpa using hw
    rw [hne, if_neg Bool.false_ne_true, if_neg Bool.false_ne_true,
      RollingSum.compute_eq (by omega), bind_ok, hfind, bind_ok]
    cases e.index.find? (RollingSum.ofBytes window).packed window with
    | none => exact ⟨_, rfl, rfl, hjoin⟩
    | some block =>
      have htracks := tracks_takeBlock h hst.toShows hst.index block
      refine ⟨_, takeBlock_eq hp h hst.toShows hst.index ha.toBooks hn block, rfl, ?_⟩
      dsimp only
      rw [← hsize]
      exact htracks

/-- **The end of the file traps at nothing.** -/
theorem finish_eq (hp : s.params.Valid) (hst : DeltaEncoder.Stands s e run window) (ha : e.Account n)
    (hn : n < 2 ^ 64) : e.scanner.finish = .ok e.endFile.2.scanner := by
  obtain ⟨m, htail, hr, htracks⟩ := takeTail_spec hp hst ha hn
  obtain ⟨run', hs, is, hi, -⟩ := DeltaEncoder.issued_takeTail hst
  obtain ⟨-, -, js, hi', -⟩ := DeltaEncoder.issued_releaseRun hs
  obtain ⟨hs', hrun⟩ := DeltaEncoder.endFile_shows hst
  have hissued := (hi.trans hi').trans (DeltaEncoder.issued_releaseCopy e.takeTail.releaseRun)
  have hb := DeltaEncoder.books_takeTail hp hst ha.toBooks
  have hrelease := DeltaEncoder.issuer_releaseCopy (DeltaEncoder.books_releaseRun hb hrun) hn
  have htable : m.table = .ofSignature e.takeTail.releaseRun.releaseCopy.index.signature := by
    rw [hissued.index, hst.index]
    exact htracks.table
  have hhasher : m.hasher = e.takeTail.releaseRun.releaseCopy.hasher := by
    rw [hissued.hasher, ← hi.hasher]
    exact htracks.hasher
  have hbuffer : e.takeTail.releaseRun.releaseCopy.buffer = #[] := Array.toList_inj.mp hs'.buffer
  rw [finish, htail, bind_ok, releaseRun_eq htracks hs hb hn, bind_ok, hrelease, bind_ok,
    DeltaEncoder.endFile_eq hst.run_le]
  refine congrArg Except.ok ((Scanner.mk.injEq ..).mpr
    ⟨htable, hbuffer.symm, rfl, hs'.length.symm, hr, ?_, hhasher, rfl⟩)
  rw [hhasher]
  rfl

/-! ## Steps -/

/-- All input is taken, and the end of the file if nothing follows. -/
theorem takeInput_eq (hp : s.params.Valid) {b : Bench DeltaEncoder} (hw : DeltaEncoder.Works s b)
    (ha : b.state.Account n) (hcap : b.input.capacity ≤ framePayloadLimit)
    (hn : n + b.input.content.length < 2 ^ 64) :
    b.state.scanner.takeInput b.input.buffer = .ok ((b.state.takeInput b.input).2.1.scanner,
      (b.state.takeInput b.input).2.2.buffer) := by
  unfold takeInput
  cases hf : b.state.finished with
  | true =>
    rw [if_pos (by exact hf), DeltaEncoder.takeInput, if_pos hf]
    rfl
  | false =>
    obtain ⟨run, window, hst⟩ := hw.stands hf
    obtain ⟨⟨run', window', hst'⟩, -⟩ := DeltaEncoder.foldl_absorb_moves hst b.input.content
    have hfold := DeltaEncoder.account_foldl hp hst ha b.input.content
    have hend : (b.input.drop b.input.length).buffer.isExhausted = b.input.ended :=
      Queue.atEnd_drop_length _
    rw [if_neg (by rw [show b.state.scanner.finished = false from hf]; exact Bool.false_ne_true),
      receive_eq hp hst ha hcap hn, bind_ok, DeltaEncoder.takeInput_of_stands hst]
    dsimp only
    rw [hend]
    by_cases he : b.input.ended = true
    · rw [if_pos he, if_pos he, finish_eq hp hst' hfold hn]
      rfl
    · rw [if_neg he, if_neg he]
      rfl

/-- Output that waits is passed on. -/
theorem pour_eq (e : DeltaEncoder) {output : Queue} (hcap : output.capacity < 2 ^ 64)
    (hs : e.backlog.sent + min e.backlog.length output.room < 2 ^ 64) :
    e.scanner.pour output.buffer = .ok
      (({ e with backlog := (e.backlog.pour output).1 } : DeltaEncoder).scanner,
        (e.backlog.pour output).2.buffer) := by
  have hdrain := Backlog.outbox_drainInto hcap hs
  change (e.backlog.outbox.drainInto output.buffer >>= _) = _
  rw [hdrain]
  rfl

theorem status_eq (e : DeltaEncoder) : e.scanner.status = e.status := by
  rw [status, DeltaEncoder.status, ← Backlog.isEmpty_outbox]
  rfl

/-- A step on the machine. -/
theorem advance_does (hp : s.params.Valid) {b : Bench DeltaEncoder} (hw : DeltaEncoder.Works s b)
    (ha : b.state.Account n) (hi : b.input.capacity ≤ framePayloadLimit)
    (ho : b.output.capacity < 2 ^ 64) (hn : n + b.input.content.length < 2 ^ 64) {made : Nat}
    (hsent : b.state.backlog.sent ≤ made + b.output.content.length)
    (hmade : made + (Transducer.step b).2.output.content.length < 2 ^ 64) :
    Does (fun c : Bench DeltaEncoder => (c.state.scanner, c.input.buffer, c.output.buffer))
      (advance b.state.scanner b.input.buffer b.output.buffer) (Transducer.step b) := by
  let w := DeltaEncoder.backlogged s
  have hwaits : (w.poured b).state.scanner.issuer.outbox.isEmpty =
      (b.state.backlog.pour b.output).1.isEmpty := Backlog.isEmpty_outbox _
  obtain ⟨hroom, hsent'⟩ := DeltaEncoder.sent_pour hsent
  change Does _ _ (DeltaEncoder.step b)
  change made + (DeltaEncoder.step b).2.output.content.length < 2 ^ 64 at hmade
  by_cases hp' : w.pending (w.poured b).state = []
  · obtain ⟨e', input, ht, -⟩ := DeltaEncoder.takeInput_takes (DeltaEncoder.works_poured hw)
    have hempty : ¬ (!(b.state.backlog.pour b.output).1.isEmpty) = true :=
      fun hc => (Backlog.waits_iff _).mp hc hp'
    have htake := takeInput_eq hp (DeltaEncoder.works_poured hw)
      (⟨⟨ha.balance, ha.copies, ha.inserts, ha.held⟩, ha.run⟩ : (w.poured b).state.Account n) hi hn
    have hkeep := DeltaEncoder.sent_takeInput (DeltaEncoder.works_poured hw)
    rw [ht] at htake hkeep
    have hcap : (w.poured b).output.capacity < 2 ^ 64 := by
      rw [show (w.poured b).output.capacity = b.output.capacity from Queue.capacity_append ..]
      exact ho
    obtain ⟨hroom', -⟩ := DeltaEncoder.sent_pour (b := e'.backlog) (q := (w.poured b).output)
      (Nat.le_trans (Nat.le_of_eq hkeep) hsent')
    rw [DeltaEncoder.step_of_poured hp' ht] at hmade ⊢
    have hmore : (w.poured b).output.content.length ≤
        (e'.backlog.pour (w.poured b).output).2.content.length := by
      rw [(e'.backlog.pour_eq (w.poured b).output).1, List.length_append]
      exact Nat.le_add_right _ _
    have hmade' : made + (e'.backlog.pour (w.poured b).output).2.content.length < 2 ^ 64 := hmade
    have hpour := pour_eq b.state ho
      (Nat.lt_of_le_of_lt hroom (Nat.lt_of_le_of_lt (Nat.add_le_add_left hmore made) hmade'))
    have hpour' := pour_eq e' hcap (Nat.lt_of_le_of_lt hroom' hmade')
    refine ⟨.ok (w.status (w.poured ⟨e', input, (w.poured b).output⟩).state), ?_, rfl⟩
    rw [advance, hpour, bind_ok]
    change (if (!(w.poured b).state.scanner.issuer.outbox.isEmpty) = true then _ else _) = _
    rw [hwaits, if_neg hempty]
    change ((w.poured b).state.scanner.takeInput (w.poured b).input.buffer >>= _) = _
    rw [htake, bind_ok]
    change (e'.scanner.pour (w.poured b).output.buffer >>= _) = _
    rw [hpour', bind_ok]
    dsimp only
    rw [status_eq]
    rfl
  · have hfull : (!(b.state.backlog.pour b.output).1.isEmpty) = true := (Backlog.waits_iff _).mpr hp'
    rw [DeltaEncoder.step_of_waiting hp'] at hmade ⊢
    refine ⟨.ok .blocked, ?_, rfl⟩
    have hpour := pour_eq b.state ho (Nat.lt_of_le_of_lt hroom hmade)
    rw [advance, hpour, bind_ok]
    change (if (!(w.poured b).state.scanner.issuer.outbox.isEmpty) = true then _ else _) = _
    rw [hwaits, if_pos hfull]
    rfl

end Scanner

/-- **The encoder on the machine does what the encoder does.** -/
theorem DeltaEncoder.implements {s : Signature} (hp : s.params.Valid) :
    Program.Implements scanner (start (.ofSignature s)) where
  step {_ _ b} h hi ho hfed hmade := by
    have hpos : 0 < s.blockLength := Nat.lt_of_lt_of_le (by decide) hp.le_blockLength
    obtain ⟨n, ha, hn⟩ := account_of_schedule hp h
    rw [List.length_append] at hmade
    exact Scanner.advance_does hp (Schedule.fit (lawful s).sound (tells_start hpos) h) ha hi
      (Nat.lt_of_le_of_lt ho (by decide)) (by omega) (sent_of_schedule hpos h) hmade

end BlockSync
