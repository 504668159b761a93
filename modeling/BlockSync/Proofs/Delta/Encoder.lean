import BlockSync.Proofs.Delta.Matching
import BlockSync.Proofs.RollingSum
import BlockSync.Proofs.Schedule

/-!
# What an encoder puts out

* `DeltaEncoder.Stands`: the state of an encoder whose window is not full;
* `DeltaEncoder.left`: the instructions that are still to be issued, told by matching what is left of
  the file as a whole;
* `absorb_moves`, `endFile_issued`: a byte that arrives, and the end of the file, issue some of them
  and leave the others.
-/

namespace BlockSync

namespace DeltaEncoder

variable {s : Signature} {e e' e'' : DeltaEncoder}

/-! ## The run, the window and the copy that is held back -/

/-- The buffer is the run `run` and behind it the window `window`. -/
structure Shows (e : DeltaEncoder) (run window : Bytes) : Prop where
  buffer : e.buffer.toList = run ++ window
  length : e.run = run.length

theorem Shows.size_eq {run window : Bytes} (h : e.Shows run window) :
    e.buffer.size = run.length + window.length := by
  rw [← Array.length_toList, h.buffer, List.length_append]

theorem Shows.run_le {run window : Bytes} (h : e.Shows run window) : e.run ≤ e.buffer.size := by
  rw [h.size_eq, h.length]
  exact Nat.le_add_right _ _

theorem Shows.size_sub {run window : Bytes} (h : e.Shows run window) :
    e.buffer.size - e.run = window.length := by
  rw [h.size_eq, h.length, Nat.add_sub_cancel_left]

theorem Shows.window_eq {run window : Bytes} (h : e.Shows run window) : e.window = window := by
  rw [DeltaEncoder.window, slice_eq, h.buffer, h.size_sub, h.length, List.drop_left, List.take_length]

/-- The copy that is held back, as an instruction. -/
def held (e : DeltaEncoder) : List Instruction :=
  e.pending.toList.map fun c => .copy c.offset c.length

/-! ## Issuing instructions -/

/-- From `e` to `e'` some instructions were issued. -/
structure Issued (e e' : DeltaEncoder) (is : List Instruction) : Prop where
  pending : e'.backlog.pending = e.backlog.pending ++ is.flatMap Instruction.encode
  totals : e'.totals = is.foldl DeltaTotals.add e.totals
  index : e'.index = e.index
  hasher : e'.hasher = e.hasher
  finished : e'.finished = e.finished

theorem Issued.trans {is js : List Instruction} (h : Issued e e' is) (h' : Issued e' e'' js) :
    Issued e e'' (is ++ js) where
  pending := by rw [h'.pending, h.pending, List.flatMap_append, List.append_assoc]
  totals := by rw [h'.totals, h.totals, List.foldl_append]
  index := h'.index.trans h.index
  hasher := h'.hasher.trans h.hasher
  finished := h'.finished.trans h.finished

theorem issued_releaseCopy (e : DeltaEncoder) : Issued e e.releaseCopy e.held := by
  unfold releaseCopy
  split
  · next h => constructor <;> simp [held, h]
  · next c h => constructor <;> simp [held, h, issue, Backlog.pending_append]

theorem pending_releaseCopy (e : DeltaEncoder) : e.releaseCopy.pending = none := by
  unfold releaseCopy
  split
  · assumption
  · rfl

theorem shows_releaseCopy {run window : Bytes} (h : e.Shows run window) :
    e.releaseCopy.Shows run window := by
  unfold releaseCopy
  split
  · exact h
  · exact ⟨h.buffer, h.length⟩

theorem join_held_insert (e : DeltaEncoder) (bs : Bytes) (is : List Instruction) :
    join (e.held ++ .insert bs :: is) = e.held ++ .insert bs :: join is := by
  unfold held
  cases e.pending with
  | none => exact join_insert bs is
  | some c => exact join_copy_insert c.offset c.length bs is

/-- A copy is merged with the one that is held back, or issues that one. -/
theorem issued_copy (e : DeltaEncoder) (c : PendingCopy) :
    ∃ is, Issued e (e.copy c) is ∧ ∀ js, join (e.held ++ .copy c.offset c.length :: js) =
      is ++ join ((e.copy c).held ++ js) := by
  have hi := issued_releaseCopy e
  unfold copy
  cases hp : e.pending with
  | none =>
    exact ⟨e.held, ⟨hi.pending, hi.totals, hi.index, hi.hasher, hi.finished⟩,
      fun js => by simp [held, hp]⟩
  | some p =>
    cases hm : p.merge? c with
    | some m =>
      refine ⟨[], ?_, fun js => ?_⟩
      · constructor <;> simp [hm]
      · have := join_copy_copy p c js
        rw [hm] at this
        simpa [held, hp, hm] using this
    | none =>
      refine ⟨e.held, ?_, fun js => ?_⟩
      · simp only [Option.bind_some, hm]
        exact ⟨hi.pending, hi.totals, hi.index, hi.hasher, hi.finished⟩
      · have := join_copy_copy p c js
        rw [hm] at this
        simpa [held, hp, hm] using this

theorem buffer_copy (e : DeltaEncoder) (c : PendingCopy) :
    (e.copy c).buffer = e.buffer ∧ (e.copy c).run = e.run ∧ (e.copy c).last = e.last := by
  unfold copy releaseCopy issue
  split
  · exact ⟨rfl, rfl, rfl⟩
  · split <;> exact ⟨rfl, rfl, rfl⟩

/-- The run is inserted behind the copy that was held back. -/
theorem issued_releaseRun {run window : Bytes} (h : e.Shows run window) :
    e.releaseRun.Shows [] window ∧ e.releaseRun.last = e.last ∧
      ∃ is, Issued e e.releaseRun is ∧ ∀ js, join (e.held ++ insertion run ++ js) =
        is ++ join (e.releaseRun.held ++ js) := by
  unfold releaseRun
  by_cases hr : run = []
  · subst hr
    rw [if_pos (by simp [h.length])]
    exact ⟨h, rfl, [], by constructor <;> simp, fun js => by simp [insertion]⟩
  · have hl : 0 < run.length := List.length_pos_iff.mpr hr
    rw [if_neg (by rw [h.length]; omega)]
    have hs := shows_releaseCopy h
    have hrun : slice e.releaseCopy.buffer 0 e.releaseCopy.run = run := by
      rw [slice_eq, hs.buffer, hs.length, List.drop_zero, List.take_left]
    have hheld : e.releaseCopy.held = [] := by simp [held, pending_releaseCopy]
    refine ⟨⟨?_, rfl⟩, ?_, e.held ++ [.insert run], ?_, fun js => ?_⟩
    · have hl := hs.size_sub
      rw [hs.length] at hl
      simp [issue, hs.buffer, hs.length, hl]
    · unfold releaseCopy issue
      split <;> rfl
    · refine (issued_releaseCopy e).trans ?_
      dsimp only
      rw [hrun]
      constructor <;> simp [issue, Backlog.pending_append]
    · have hj := join_held_insert e run js
      simp only [insertion, if_neg hr, List.append_assoc, List.singleton_append, hj]
      simp [held, issue, pending_releaseCopy]

/-! ## What is left to be issued -/

/-- The instructions that are still to be issued if `rest` is what follows of the file. -/
def left (s : Signature) (e : DeltaEncoder) (rest : Bytes) : List Instruction :=
  join (e.held ++ gather (e.buffer.toList.take e.run) (s.advances (e.window ++ rest))) ++
    [.close (e.hasher.update rest).digest]

theorem left_eq {run window : Bytes} (h : e.Shows run window) (rest : Bytes) :
    left s e rest = join (e.held ++ gather run (s.advances (window ++ rest))) ++
      [.close (e.hasher.update rest).digest] := by
  rw [left, h.window_eq, h.buffer, h.length, List.take_left]

/-- The window is not full, and the checksum that is kept is that of the last full window. -/
structure Stands (s : Signature) (e : DeltaEncoder) (run window : Bytes) : Prop
    extends e.Shows run window where
  index : e.index = .ofSignature s
  finished : e.finished = false
  short : window.length < s.blockLength
  last : ∀ sum old, e.last = some (sum, old) →
    sum = RollingSum.ofBytes (old :: window) ∧ window.length + 1 = s.blockLength

/-- From `e` to `e'` the bytes `bs` of the file were taken, and of the instructions that were left some
were issued. -/
def Moves (s : Signature) (e e' : DeltaEncoder) (bs : Bytes) : Prop :=
  (∃ run window, Stands s e' run window) ∧
    e'.hasher = e.hasher.update bs ∧
    ∃ is, e'.backlog.pending = e.backlog.pending ++ is.flatMap Instruction.encode ∧
      e'.totals = is.foldl DeltaTotals.add e.totals ∧
      ∀ rest, left s e (bs ++ rest) = is ++ left s e' rest

/-- The window moves over one byte, and the rest of it stays. -/
theorem issued_extendRun {run window : Bytes} {b : UInt8} (h : e.Shows run (b :: window)) :
    ∃ run', e.extendRun.Shows run' window ∧ e.extendRun.last = e.last ∧
      ∃ is, Issued e e.extendRun is ∧ ∀ way, join (e.held ++ gather run (.byte b :: way)) =
        is ++ join (e.extendRun.held ++ gather run' way) := by
  have hs : ({ e with run := e.run + 1 } : DeltaEncoder).Shows (run ++ [b]) window :=
    ⟨by simp [h.buffer], by simp [h.length]⟩
  unfold extendRun
  by_cases hl : insertLimit ≤ run.length + 1
  · obtain ⟨hs', hlast, is, hi, hj⟩ := issued_releaseRun hs
    rw [if_pos (by rw [h.length]; exact hl)]
    refine ⟨[], hs', hlast, is, ⟨hi.pending, hi.totals, hi.index, hi.hasher, hi.finished⟩,
      fun way => ?_⟩
    rw [← hj, gather, if_pos hl]
    simp [insertion, held]
  · rw [if_neg (by rw [h.length]; exact hl)]
    refine ⟨run ++ [b], hs, rfl, [], by constructor <;> simp, fun way => ?_⟩
    rw [gather, if_neg hl]
    rfl

/-- The first byte of the window joins the run. -/
theorem issued_takeByte {run window : Bytes} {b : UInt8} (h : e.Shows run (b :: window))
    (sum : RollingSum) :
    ∃ run', (e.takeByte sum).Shows run' window ∧ (e.takeByte sum).last = some (sum, b) ∧
      ∃ is, Issued e (e.takeByte sum) is ∧ ∀ way, join (e.held ++ gather run (.byte b :: way)) =
        is ++ join ((e.takeByte sum).held ++ gather run' way) := by
  have hold : e.buffer.getD e.run 0 = b := by
    rw [Array.getD_eq_getD_getElem?, ← Array.getElem?_toList, h.buffer, h.length]
    simp
  let marked : DeltaEncoder := { e with last := some (sum, e.buffer.getD e.run 0) }
  have hm : marked.Shows run (b :: window) := ⟨h.buffer, h.length⟩
  obtain ⟨run', hs, hl, is, hi, hj⟩ := issued_extendRun hm
  have ht : e.takeByte sum = marked.extendRun := rfl
  have hheld : marked.held = e.held := rfl
  rw [ht]
  exact ⟨run', hs, by rw [hl, ← hold], is, ⟨hi.pending, hi.totals, hi.index, hi.hasher, hi.finished⟩,
    fun way => by rw [← hheld, hj]⟩

/-- The window is a block of the basis, and a new one starts behind it. -/
theorem issued_takeBlock {run window : Bytes} (h : e.Shows run window)
    (hx : e.index = .ofSignature s) (b : BlockSum) :
    (e.takeBlock b).Shows [] [] ∧ (e.takeBlock b).last = none ∧
      ∃ is, Issued e (e.takeBlock b) is ∧
        ∀ way, join (e.held ++ gather run (s.copied b window.length :: way)) =
          is ++ join ((e.takeBlock b).held ++ gather [] way) := by
  obtain ⟨-, -, is, hi, hj⟩ := issued_releaseRun h
  let c : PendingCopy := ⟨b.index.toUInt64 * e.index.blockLength.toUInt64,
    UInt32.ofNat (e.buffer.size - e.run)⟩
  let cleared : DeltaEncoder := { e.releaseRun with buffer := #[], run := 0, last := none }
  have ht : e.takeBlock b = cleared.copy c := rfl
  obtain ⟨js, hi', hj'⟩ := issued_copy cleared c
  obtain ⟨hb, hr, hl⟩ := buffer_copy cleared c
  have hc : s.copied b window.length = .block c.offset c.length := by
    have ho : UInt64.ofNat (b.index.toNat * s.blockLength) =
        b.index.toUInt64 * e.index.blockLength.toUInt64 := by
      have hi : UInt64.ofNat b.index.toNat = b.index.toUInt64 := UInt64.toNat_inj.mp (by simp)
      have hb : UInt64.ofNat s.blockLength = e.index.blockLength.toUInt64 := by
        rw [hx]
        exact UInt64.toNat_inj.mp (by simp [Signature.blockLength, SignatureIndex.blockLength,
          SignatureIndex.ofSignature])
      rw [UInt64.ofNat_mul, hi, hb]
    rw [Signature.copied, ho, ← h.size_sub]
  rw [ht]
  refine ⟨⟨by rw [hb]; rfl, by rw [hr]; rfl⟩, by rw [hl], is ++ js, ?_, fun way => ?_⟩
  · have hc : Issued e cleared is := ⟨hi.pending, hi.totals, hi.index, hi.hasher, hi.finished⟩
    exact hc.trans hi'
  · have hheld : cleared.held = e.releaseRun.held := rfl
    rw [hc, gather, ← List.append_assoc, hj, List.append_assoc, ← hheld, hj']

/-! ## A byte arrives -/

theorem shows_receive {run window : Bytes} (h : e.Shows run window) (b : UInt8) :
    (e.receive b).Shows run (window ++ [b]) :=
  ⟨by simp [receive, h.buffer], h.length⟩

/-- When a byte fills the window, the encoder looks for a block that agrees with all of it. -/
theorem absorb_of_full {run window : Bytes} (h : Stands s e run window) {b : UInt8}
    (hf : window.length + 1 = s.blockLength) :
    e.absorb b = match s.find? (window ++ [b]) with
      | some block => (e.receive b).takeBlock block
      | none => (e.receive b).takeByte (RollingSum.ofBytes (window ++ [b])) := by
  have hs := shows_receive h.toShows b
  have hlen : ¬ (e.receive b).buffer.size - (e.receive b).run <
      (e.receive b).index.blockLength.toNat := by
    have : (e.receive b).index.blockLength.toNat = s.blockLength := by
      rw [show (e.receive b).index = e.index from rfl, h.index]; rfl
    rw [hs.size_sub, this, List.length_append, List.length_singleton]; omega
  have hx : (e.receive b).index = .ofSignature s := h.index
  have hfind : s.find? (window ++ [b]) = (SignatureIndex.ofSignature s).find?
      (RollingSum.ofBytes (window ++ [b])).packed (window ++ [b]) := by
    rw [SignatureIndex.find?_ofSignature]
    rfl
  have key : ∀ sum, sum = RollingSum.ofBytes (window ++ [b]) →
      (if (e.receive b).index.hasWeak sum.packed then
        match (e.receive b).index.find? sum.packed (e.receive b).window with
        | some block => (e.receive b).takeBlock block
        | none => (e.receive b).takeByte sum
      else (e.receive b).takeByte sum) = match s.find? (window ++ [b]) with
        | some block => (e.receive b).takeBlock block
        | none => (e.receive b).takeByte (RollingSum.ofBytes (window ++ [b])) := by
    rintro sum rfl
    rw [hx, hs.window_eq, hfind]
    split
    · rfl
    · next hw => rw [SignatureIndex.find?_eq_none_of_hasWeak (by simpa using hw)]
  unfold absorb
  dsimp only
  rw [if_neg hlen]
  have hlast : (e.receive b).last = e.last := rfl
  rcases hl : e.last with _ | ⟨sum, old⟩ <;> simp only [hlast, hl]
  · exact key _ (by rw [hs.window_eq])
  · exact key _ (by rw [(h.last sum old hl).1, RollingSum.roll_ofBytes])

theorem left_receive {run window : Bytes} (h : Stands s e run window) (b : UInt8) (rest : Bytes) :
    left s e ([b] ++ rest) =
      join (e.held ++ gather run (s.advances (window ++ [b] ++ rest))) ++
        [.close ((e.receive b).hasher.update rest).digest] := by
  rw [left_eq h.toShows, List.append_assoc]
  rfl

/-- A byte that does not fill the window waits in it. -/
theorem moves_receive {run window : Bytes} (h : Stands s e run window) {b : UInt8}
    (hlt : window.length + 1 < s.blockLength) :
    e.absorb b = e.receive b ∧ Moves s e (e.receive b) [b] := by
  have hs := shows_receive h.toShows b
  refine ⟨?_, ⟨run, window ++ [b], hs, h.index, h.finished, by simpa using hlt,
    fun sum old hl => ?_⟩, rfl, [], by simp [receive], rfl, fun rest => ?_⟩
  · have hx : e.index.blockLength.toNat = s.blockLength := by rw [h.index]; rfl
    unfold absorb
    dsimp only
    rw [hs.size_sub, if_pos]
    simpa [receive, hx] using hlt
  · have := (h.last sum old hl).2
    omega
  · rw [left_receive h, left_eq hs]
    rfl

/-- A full window that is a block of the basis is taken whole. -/
theorem moves_takeBlock {run window : Bytes} (h : Stands s e run window) {b : UInt8}
    {block : BlockSum} (hf : window.length + 1 = s.blockLength)
    (hfind : s.find? (window ++ [b]) = some block) :
    Moves s e ((e.receive b).takeBlock block) [b] := by
  have hpos : 0 < s.blockLength := by omega
  have hlen : (window ++ [b]).length = s.blockLength := by simpa using hf
  obtain ⟨hs', hl', is, hi, hj⟩ := issued_takeBlock (shows_receive h.toShows b) h.index block
  refine ⟨⟨[], [], hs', hi.index.trans h.index, hi.finished.trans h.finished, hpos,
    fun sum old hl => by simp [hl'] at hl⟩, hi.hasher, is, hi.pending, hi.totals, fun rest => ?_⟩
  have hadv : s.advances (window ++ [b] ++ rest) =
      s.copied block (window ++ [b]).length :: s.advances rest := by
    rw [Signature.advances_of_some hpos (by rw [List.length_append, hlen]; omega)
      (by rw [List.take_left' hlen]; exact hfind), hlen, ← hlen, List.drop_left]
  rw [left_receive h, hadv, left_eq hs', hi.hasher]
  have := hj (s.advances rest)
  simp only [List.nil_append, ← List.append_assoc]
  exact congrArg (· ++ _) this

/-- Of a full window that is no block of the basis the first byte is taken. -/
theorem moves_takeByte {run window : Bytes} (h : Stands s e run window) {b : UInt8}
    (hf : window.length + 1 = s.blockLength) (hfind : s.find? (window ++ [b]) = none) :
    Moves s e ((e.receive b).takeByte (RollingSum.ofBytes (window ++ [b]))) [b] := by
  have hpos : 0 < s.blockLength := by omega
  have hlen : (window ++ [b]).length = s.blockLength := by simpa using hf
  -- the byte that is taken is the oldest one, which is `b` itself if blocks have length one
  obtain ⟨x, w, hx⟩ : ∃ x w, window ++ [b] = x :: w := by
    cases window with
    | nil => exact ⟨b, [], rfl⟩
    | cons x w => exact ⟨x, w ++ [b], rfl⟩
  have hw : w.length + 1 = s.blockLength := by rw [← hlen, hx, List.length_cons]
  have hs := shows_receive h.toShows b
  rw [hx] at hs
  obtain ⟨run', hs', hl', is, hi, hj⟩ := issued_takeByte hs (RollingSum.ofBytes (window ++ [b]))
  refine ⟨⟨run', w, hs', hi.index.trans h.index, hi.finished.trans h.finished, by omega,
    fun sum old hl => ?_⟩, hi.hasher, is, hi.pending, hi.totals, fun rest => ?_⟩
  · obtain ⟨rfl, rfl⟩ : RollingSum.ofBytes (window ++ [b]) = sum ∧ x = old := by
      simpa [hl'] using hl
    exact ⟨by rw [hx], hw⟩
  · have hadv : s.advances (window ++ [b] ++ rest) = .byte x :: s.advances (w ++ rest) := by
      have ht : (window ++ [b] ++ rest).take s.blockLength = window ++ [b] := List.take_left' hlen
      rw [hx, List.cons_append] at ht ⊢
      exact Signature.advances_of_none hpos (by rw [List.length_append]; omega)
        (by rw [ht, ← hx]; exact hfind)
    have hheld : (e.receive b).held = e.held := rfl
    rw [left_receive h, hadv, ← hheld, hj, left_eq hs', hi.hasher, List.append_assoc]

theorem absorb_moves {run window : Bytes} (h : Stands s e run window) (b : UInt8) :
    Moves s e (e.absorb b) [b] := by
  rcases Nat.lt_or_ge (window.length + 1) s.blockLength with hlt | hge
  · obtain ⟨hr, hm⟩ := moves_receive h (b := b) hlt
    rw [hr]
    exact hm
  · have hf : window.length + 1 = s.blockLength := Nat.le_antisymm h.short hge
    rw [absorb_of_full h hf]
    cases hfind : s.find? (window ++ [b]) with
    | some block => exact moves_takeBlock h hf hfind
    | none => exact moves_takeByte h hf hfind

theorem Moves.refl {run window : Bytes} (h : Stands s e run window) : Moves s e e [] :=
  ⟨⟨run, window, h⟩, rfl, [], by simp, rfl, fun _ => rfl⟩

theorem Moves.trans {bs cs : Bytes} (h : Moves s e e' bs) (h' : Moves s e' e'' cs) :
    Moves s e e'' (bs ++ cs) := by
  obtain ⟨-, hh, is, hp, ht, hl⟩ := h
  obtain ⟨hs, hh', js, hp', ht', hl'⟩ := h'
  refine ⟨hs, by rw [hh', hh, Blake3.Hasher.update_append], is ++ js, ?_, ?_, fun rest => ?_⟩
  · rw [hp', hp, List.flatMap_append, List.append_assoc]
  · rw [ht', ht, List.foldl_append]
  · rw [List.append_assoc, hl, hl', List.append_assoc]

theorem foldl_absorb_moves {run window : Bytes} (h : Stands s e run window) (bs : Bytes) :
    Moves s e (bs.foldl absorb e) bs := by
  induction bs generalizing e run window with
  | nil => exact Moves.refl h
  | cons b bs ih =>
    have hb := absorb_moves h b
    obtain ⟨run', window', h'⟩ := hb.1
    exact hb.trans (ih h')

/-! ## The file ends -/

/-- What is left of the window is a short block of the basis, or joins the run. -/
def takeTail (e : DeltaEncoder) : DeltaEncoder :=
  match if e.window.isEmpty then none
    else e.index.find? (RollingSum.ofBytes e.window).packed e.window with
  | some block => e.takeBlock block
  | none => { e with run := e.buffer.size }

theorem endFile_eq (h : e.run ≤ e.buffer.size) :
    e.endFile = (.ok (), { e.takeTail.releaseRun.releaseCopy with
      last := none
      finished := true }.issue (.close e.takeTail.releaseRun.releaseCopy.hasher.digest)) := by
  unfold endFile
  rw [if_neg (by omega)]
  rfl

theorem issued_takeTail {run window : Bytes} (h : Stands s e run window) :
    ∃ run', e.takeTail.Shows run' [] ∧ ∃ is, Issued e e.takeTail is ∧
      join (e.held ++ gather run (s.advances window)) =
        is ++ join (e.takeTail.held ++ insertion run') := by
  have hfind : e.index.find? (RollingSum.ofBytes window).packed window = s.find? window := by
    rw [h.index, SignatureIndex.find?_ofSignature]
    rfl
  have hrun : ({ e with run := e.buffer.size } : DeltaEncoder).Shows (run ++ window) [] :=
    ⟨by simp [h.buffer], by rw [← Array.length_toList, h.buffer]⟩
  unfold takeTail
  rw [h.window_eq, hfind, Signature.advances_of_lt h.short, Signature.lastAdvance]
  by_cases hw : window = []
  · subst hw
    refine ⟨run, ?_, [], by constructor <;> simp, rfl⟩
    simpa using hrun
  · have hne : window.isEmpty = false := by simpa using hw
    simp only [hne, if_neg hw, Bool.false_eq_true, if_false]
    cases s.find? window with
    | some block =>
      obtain ⟨hs, -, is, hi, hj⟩ := issued_takeBlock h.toShows h.index block
      exact ⟨[], hs, is, hi, hj []⟩
    | none => exact ⟨run ++ window, hrun, [], by constructor <;> simp, rfl⟩

theorem join_held (e : DeltaEncoder) : join e.held = e.held := by
  unfold held
  cases e.pending with
  | none => rw [join.eq_def]; rfl
  | some c => exact join_copy_nil c.offset c.length

/-- When the file ends, all instructions that were left are issued. -/
theorem endFile_issued {run window : Bytes} (h : Stands s e run window) :
    ∃ e', e.endFile = (.ok (), e') ∧ e'.finished = true ∧ e'.index = e.index ∧
      e'.backlog.pending = e.backlog.pending ++ (left s e []).flatMap Instruction.encode ∧
      e'.totals = (left s e []).foldl DeltaTotals.add e.totals := by
  obtain ⟨run₁, hs₁, is₁, hi₁, hj₁⟩ := issued_takeTail h
  obtain ⟨-, -, is₂, hi₂, hj₂⟩ := issued_releaseRun hs₁
  have hi := (hi₁.trans hi₂).trans (issued_releaseCopy e.takeTail.releaseRun)
  have hleft : left s e [] = is₁ ++ is₂ ++ e.takeTail.releaseRun.held ++
      [.close e.takeTail.releaseRun.releaseCopy.hasher.digest] := by
    have hj := hj₂ []
    rw [List.append_nil, List.append_nil, join_held] at hj
    rw [left_eq h.toShows, List.append_nil, hj₁, hj, hi.hasher, Blake3.Hasher.update_nil,
      ← List.append_assoc]
  refine ⟨_, endFile_eq h.run_le, rfl, hi.index, ?_, ?_⟩
  · simp only [issue, Backlog.pending_append]
    rw [hleft, List.flatMap_append, List.flatMap_singleton, hi.pending, List.append_assoc]
  · simp only [issue]
    rw [hleft, List.foldl_append, hi.totals]
    rfl

end DeltaEncoder

end BlockSync
