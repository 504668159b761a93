import BlockSync.Proofs.Delta.Accounts
import BlockSync.Proofs.Delta.Patching
import BlockSync.Proofs.Machine.Loader

/-!
# Patching on the machine

* `Patcher.proceed`: one move; `Patcher.advance`: moves until something is lacking, and what a step
  reports then;
* **`Patcher.proceed_eq`**: no move traps, whatever the delta says and the basis does, as long as the
  bytes written can be counted;
* `Patcher.written_of_schedule`: a patcher has counted what it has put out;
* **`Patcher.implements`**: the patcher on the machine does what the patcher does.
-/

namespace BlockSync

open Machine

namespace Patcher

variable {β : Type}

/-- The range of a copy in a complete field, if it lies within the basis. -/
def readRange (basisSize : Nat) (args : Bytes) : Machine (Except TransferError PatchStage) := do
  let offset ← number 8 (← part args 0 8)
  let length ← number 4 (← part args 8 args.length)
  -- a sum that does not fit a word is beyond any basis
  if offset + length < 2 ^ 64 ∧ offset + length ≤ basisSize then
    return .ok (.copying offset length)
  else return .error (.copyOutOfBounds offset length basisSize)

/-- The stage that the length of an insertion in a complete field leads to. -/
def readLength (field : Bytes) : Machine PatchStage := do
  let remaining ← number 4 field
  return if remaining = 0 then .opcode else .inserting remaining

variable [Basis β]

/-- As much of a copy as there is room for. -/
def copyPart (p : Patcher β) (offset remaining : Nat) (input output : Buffer) :
    Machine (Move (Patcher β × Buffer × Buffer)) := do
  let room ← output.room
  if room = 0 then return .halt .full (p, input, output)
  else
    let count := min remaining room
    within count room
    match Basis.readAt p.basis offset count with
    | (.error f, basis) => return .fail (.io f) ({ p with basis := basis }, input, output)
    | (.ok bs, basis) =>
      if bs.length = count then
        let written ← add 64 p.written bs.length
        let output ← output.receive bs count
        let offset ← add 64 offset count
        let remaining ← sub remaining count
        return .next ({ p with
          basis := basis
          stage := .copying offset remaining
          hasher := p.hasher.update bs
          written := written }, input, output)
      else return .fail (.io .unexpectedEof) ({ p with basis := basis }, input, output)

omit [Basis β] in
/-- As much of an insertion as there is input and room for. -/
def insertPart (p : Patcher β) (remaining : Nat) (input output : Buffer) :
    Machine (Move (Patcher β × Buffer × Buffer)) := do
  let room ← output.room
  if room = 0 then return .halt .full (p, input, output)
  else if input.isEmpty then return .halt .starved (p, input, output)
  else
    let count := min remaining (min input.filled room)
    let bs ← part (← input.data) 0 count
    let (_, output) ← output.write bs
    let written ← add 64 p.written bs.length
    let input ← input.consume count
    let left ← sub remaining count
    return .next ({ p with
      stage := if remaining = count then .opcode else .inserting left
      hasher := p.hasher.update bs
      written := written }, input, output)

/-- One move. -/
def proceed (p : Patcher β) (input output : Buffer) :
    Machine (Move (Patcher β × Buffer × Buffer)) :=
  match p.stage with
  | .mark => do
    match ← input.fill p.field.bytes deltaMark.length with
    | (none, field, input) => return .halt .starved ({ p with field := ⟨field⟩ }, input, output)
    | (some bs, field, input) =>
      match p.takeMark bs with
      | .error e => return .fail e ({ p with field := ⟨field⟩ }, input, output)
      | .ok p => return .next (p, input, output)
  | .opcode => do
    match ← input.data with
    | [] => return .halt .starved (p, input, output)
    | code :: _ =>
      let input ← input.consume 1
      match stageOf code with
      | .error e => return .fail e (p, input, output)
      | .ok stage => return .next ({ p with stage := stage }, input, output)
  | .copyRange => do
    match ← input.fill p.field.bytes 12 with
    | (none, field, input) => return .halt .starved ({ p with field := ⟨field⟩ }, input, output)
    | (some args, _, input) =>
      match ← readRange p.basisSize args with
      | .error e => return .fail e ({ p with field := .empty }, input, output)
      | .ok stage => return .next ({ p with stage := stage, field := .empty }, input, output)
  | .copying offset remaining =>
    if remaining = 0 then return .next ({ p with stage := .opcode }, input, output)
    else p.copyPart offset remaining input output
  | .insertLength => do
    match ← input.fill p.field.bytes 4 with
    | (none, field, input) => return .halt .starved ({ p with field := ⟨field⟩ }, input, output)
    | (some bs, _, input) =>
      let stage ← readLength bs
      return .next ({ p with stage := stage, field := .empty }, input, output)
  | .inserting remaining => p.insertPart remaining input output
  | .checksum => do
    match ← input.fill p.field.bytes digestLength with
    | (none, field, input) => return .halt .starved ({ p with field := ⟨field⟩ }, input, output)
    | (some bs, _, input) =>
      let recorded ← Digest.fill bs
      let p : Patcher β := { p with field := .empty }
      match p.checkDigest recorded with
      | .error e => return .fail e (p, input, output)
      | .ok () => return .next ({ p with stage := .done }, input, output)
  | .done =>
    if input.isEmpty then return .halt .starved (p, input, output)
    else return .fail (.corruptedDelta (.trailingBytes input.filled)) (p, input, output)

/-- Moves until input or room is lacking. -/
def proceedAll : Nat → Patcher β → Buffer → Buffer →
    Machine (Except TransferError Halt × Patcher β × Buffer × Buffer)
  | 0, _, _, _ => .error .diverged
  | fuel + 1, p, input, output => do
    match ← p.proceed input output with
    | .next (p, input, output) => proceedAll fuel p input output
    | .halt reason (p, input, output) => return (.ok reason, p, input, output)
    | .fail e (p, input, output) => return (.error e, p, input, output)

/-- One step. -/
def advance (p : Patcher β) (input output : Buffer) :
    Machine (Except TransferError Status × Patcher β × Buffer × Buffer) := do
  let fuel := 3 * (input.filled + (← output.room) + 1)
  match ← proceedAll fuel p input output with
  | (.error e, p, input, output) => return (.error e, p, input, output)
  | (.ok reason, p, input, output) =>
    if p.stage = .done then
      return (.ok (if input.ended then .done else .blocked), p, input, output)
    else if reason = .starved ∧ input.isExhausted then
      return (.error (.corruptedDelta .endedEarly), p, input, output)
    else return (.ok .blocked, p, input, output)

instance : Program (Patcher β) where
  step := advance

/-- A patcher and its queues on the machine. -/
def station (b : Bench (Patcher β)) : Patcher β × Buffer × Buffer :=
  (b.state, b.input.buffer, b.output.buffer)

/-! ## Moves -/

omit [Basis β] in
theorem readRange_eq {basisSize : Nat} (hs : basisSize < 2 ^ 64) {args : Bytes}
    (h : args.length = 12) : readRange basisSize args = .ok (stageOfRange basisSize args) := by
  have h₁ : 8 ≤ (args.take 8).length := by
    rw [List.length_take]
    omega
  have h₂ : 4 ≤ (args.drop 8).length := by
    rw [List.length_drop]
    omega
  have htake : (args.drop 8).take 4 = args.drop 8 :=
    List.take_of_length_le (by rw [List.length_drop]; omega)
  rw [readRange, part_zero (by omega), bind_ok, number_of_le h₁, bind_ok, part_length (by omega),
    bind_ok, number_of_le h₂, bind_ok, htake, List.take_take, Nat.min_self, stageOfRange]
  by_cases hle : BigEndian.decode (args.take 8) + BigEndian.decode (args.drop 8) ≤ basisSize
  · rw [if_pos hle, if_pos ⟨by omega, hle⟩]
    rfl
  · rw [if_neg hle, if_neg fun hc => hle hc.2]
    rfl

omit [Basis β] in
theorem readLength_eq {field : Bytes} (h : field.length = 4) :
    readLength field = .ok (stageOfLength field) := by
  rw [readLength, number_of_le (by omega), bind_ok, List.take_of_length_le (by omega), stageOfLength]
  cases BigEndian.decode field <;> rfl

variable {β' : β} {size written : Nat} {verify : Bool} {field : Field} {hasher : Blake3.Hasher}
  {input output : Queue}

/-- A read of the basis may fail, or give too little. -/
theorem copyPart_eq {offset remaining : Nat}
    (h : Fits (⟨β', size, verify, .copying offset remaining, field, hasher, written⟩ : Patcher β))
    (hsize : size < 2 ^ 64) (ho : output.capacity < 2 ^ 64) (hpos : remaining ≠ 0)
    (hw : ∀ c, move ⟨⟨β', size, verify, .copying offset remaining, field, hasher, written⟩, input,
      output⟩ = .next c → c.state.written < 2 ^ 64) :
    copyPart ⟨β', size, verify, .copying offset remaining, field, hasher, written⟩ offset remaining
        input.buffer output.buffer =
      .ok ((move ⟨⟨β', size, verify, .copying offset remaining, field, hasher, written⟩, input,
        output⟩).map station) := by
  obtain ⟨rfl, hwithin⟩ : field = .empty ∧ offset + remaining ≤ size := h
  have hcount : min remaining output.room ≤ remaining := Nat.min_le_left _ _
  have hroom' : min remaining output.room ≤ output.room := Nat.min_le_right _ _
  rw [copyPart, Queue.buffer_room, bind_ok]
  simp only [move, if_neg hpos] at hw ⊢
  by_cases hroom : output.room = 0
  · rw [if_pos hroom, if_pos hroom]
    rfl
  rw [if_neg hroom] at hw
  rw [if_neg hroom, if_neg hroom, within_of_le hroom', bind_ok]
  rcases hread : Basis.readAt β' offset (min remaining output.room) with ⟨f | bs, β''⟩
  · rfl
  by_cases hl : bs.length = min remaining output.room
  · have hfits : bs.length ≤ output.room := Nat.le_trans (Nat.le_of_eq hl) hroom'
    have hreceive := Queue.buffer_receive ho hfits
    rw [hl] at hreceive
    have hoffset : offset + min remaining output.room < 2 ^ 64 := by omega
    simp only [hread, record, hl] at hw
    simp only [hl, bind_ok, add_of_lt (hw _ rfl), hreceive, add_of_lt hoffset, sub_of_le hcount, record]
    rfl
  · simp only [if_neg hl]
    rfl

theorem insertPart_eq {remaining : Nat} (hi : input.capacity < 2 ^ 64) (ho : output.capacity < 2 ^ 64)
    (hw : ∀ c, move ⟨⟨β', size, verify, .inserting remaining, field, hasher, written⟩, input,
      output⟩ = .next c → c.state.written < 2 ^ 64) :
    insertPart ⟨β', size, verify, .inserting remaining, field, hasher, written⟩ remaining input.buffer
        output.buffer =
      .ok ((move ⟨⟨β', size, verify, .inserting remaining, field, hasher, written⟩, input,
        output⟩).map station) := by
  have hcount : min remaining (min input.length output.room) ≤ remaining := Nat.min_le_left _ _
  have hlen : min remaining (min input.length output.room) ≤ input.length := by omega
  have hcont : min remaining (min input.length output.room) ≤ input.content.length := by
    rw [Queue.length_content]
    exact hlen
  have hl : (input.content.take (min remaining (min input.length output.room))).length =
      min remaining (min input.length output.room) := List.length_take_of_le hcont
  rw [insertPart, Queue.buffer_room, bind_ok]
  simp only [move, Queue.front_eq] at hw ⊢
  by_cases hroom : output.room = 0
  · rw [if_pos hroom, if_pos hroom]
    rfl
  · rw [if_neg hroom] at hw
    rw [if_neg hroom, if_neg hroom]
    by_cases he : input.isEmpty = true
    · rw [if_pos (by exact he), if_pos he]
      rfl
    · rw [if_neg he] at hw
      rw [if_neg (by exact he), if_neg he]
      simp only [record, hl] at hw
      simp only [Queue.buffer_data hi, bind_ok, Queue.filled_buffer, part_zero hcont,
        Queue.buffer_write ho, hl, add_of_lt (hw _ rfl), Queue.buffer_consume hi hlen,
        sub_of_le hcount, record]
      rfl

/-- **No move traps, whatever the delta says and the basis does**, if the bytes written can be
counted. -/
theorem proceed_eq {b : Bench (Patcher β)} (h : Fits b.state) (hsize : b.state.basisSize < 2 ^ 64)
    (hi : b.input.capacity < 2 ^ 64) (ho : b.output.capacity < 2 ^ 64)
    (hw : ∀ c, move b = .next c → c.state.written < 2 ^ 64) :
    b.state.proceed b.input.buffer b.output.buffer = .ok ((move b).map station) := by
  obtain ⟨⟨β', size, verify, stage, field, hasher, written⟩, input, output⟩ := b
  have hfill := Queue.buffer_fill hi field
  cases stage with
  | mark =>
    simp only [proceed, hfill, bind_ok, move]
    rcases field.collect input deltaMark.length with ⟨_ | bs, f, q⟩
    · rfl
    · dsimp only
      cases takeMark _ bs <;> rfl
  | opcode =>
    simp only [proceed, Queue.buffer_data hi, bind_ok, move, Queue.front_eq]
    cases hcont : input.content with
    | nil => rfl
    | cons code bs =>
      have hone : 1 ≤ input.length := by
        rw [← Queue.length_content, hcont]
        exact Nat.succ_pos _
      simp only [Queue.buffer_consume hi hone, bind_ok, List.take_succ_cons]
      cases stageOf code <;> rfl
  | copyRange =>
    simp only [proceed, hfill, bind_ok, move]
    obtain ⟨q, -, -, ⟨bs, hc, hl, -⟩ | ⟨hc, -, -⟩⟩ := Field.collect_spec h input
    · simp only [hc, readRange_eq hsize hl, bind_ok]
      cases stageOfRange size bs <;> rfl
    · simp only [hc]
      rfl
  | copying offset remaining =>
    by_cases hz : remaining = 0
    · simp only [proceed, move, if_pos hz]
      rfl
    · simp only [proceed, if_neg hz]
      exact copyPart_eq h hsize ho hz hw
  | insertLength =>
    simp only [proceed, hfill, bind_ok, move]
    obtain ⟨q, -, -, ⟨bs, hc, hl, -⟩ | ⟨hc, -, -⟩⟩ := Field.collect_spec h input
    · simp only [hc, readLength_eq hl, bind_ok]
      rfl
    · simp only [hc]
      rfl
  | inserting remaining => exact insertPart_eq hi ho hw
  | checksum =>
    simp only [proceed, hfill, bind_ok, move]
    rcases field.collect input digestLength with ⟨_ | bs, f, q⟩
    · rfl
    · simp only [Digest.fill_eq, bind_ok]
      cases checkDigest _ _ <;> rfl
  | done =>
    simp only [proceed, move]
    by_cases he : input.isEmpty = true
    · rw [if_pos (by exact he), if_pos he]
      rfl
    · rw [if_neg (by exact he), if_neg he]
      rfl

/-! ## Counting what is put out -/

/-- A patcher has counted what it has put out. -/
theorem written_of_schedule {start : Patcher β} {fed taken : Bytes}
    {result : Except Failure Status} {b : Bench (Patcher β)} (h : Schedule start fed taken result b) :
    b.state.written = start.written + (taken ++ b.output.content).length :=
  (accounts_of_reach (reach_of_schedule .id h)).2

/-! ## Steps -/

variable {b : Bench (Patcher β)}

/-- Moves until something is lacking: none traps, and they come to an end. -/
theorem proceedAll_eq (h : Fits b.state) (hsize : b.state.basisSize < 2 ^ 64)
    (hi : b.input.capacity < 2 ^ 64) (ho : b.output.capacity < 2 ^ 64)
    (hw : (moves b).2.state.written < 2 ^ 64) {fuel : Nat} (hf : weight b < fuel) :
    proceedAll fuel b.state b.input.buffer b.output.buffer =
      .ok ((moves b).1, station (moves b).2) := by
  -- on the fuel: each move takes input, or fills room, or leads to a lower stage
  induction fuel generalizing b with
  | zero => omega
  | succ fuel ih =>
    have hone : ∀ c, move b = .next c → c.state.written < 2 ^ 64 := fun c hc => by
      rw [moves_of_next hc] at hw
      exact Nat.lt_of_le_of_lt (accounts_moves c).written_le hw
    have hgoes := move_goes h
    obtain ⟨hin, hout⟩ := move_left b
    rw [proceedAll, proceed_eq h hsize hi ho hone, bind_ok]
    cases hm : move b with
    | next c =>
      rw [hm] at hgoes hin hout
      obtain ⟨hc, hcovers⟩ := hgoes
      rw [← hcovers.basisSize] at hsize
      rw [← hin.capacity] at hi
      rw [← hout.capacity] at ho
      have hlt := weight_lt_of_move hm
      rw [moves_of_next hm] at hw ⊢
      exact ih hc hsize hi ho hw (by omega)
    | halt reason c =>
      rw [moves_of_halt hm]
      rfl
    | fail e c =>
      rw [moves_of_fail hm]
      rfl

/-- A step on the machine. -/
theorem advance_does (h : Fits b.state) (hsize : b.state.basisSize < 2 ^ 64)
    (hi : b.input.capacity < 2 ^ 64) (ho : b.output.capacity < 2 ^ 64)
    (hw : (Transducer.step b).2.state.written < 2 ^ 64) :
    Does station (advance b.state b.input.buffer b.output.buffer) (Transducer.step b) := by
  change (step b).2.state.written < 2 ^ 64 at hw
  rw [snd_step] at hw
  have hrank := stageRank_le b.state.stage
  refine ⟨(step b).1, ?_, rfl⟩
  change _ = Except.ok ((step b).1, station (step b).2)
  rw [advance, Queue.buffer_room, bind_ok]
  have hweight : weight b < 3 * (b.input.length + b.output.room + 1) := by
    simp only [weight]
    omega
  have hall := proceedAll_eq h hsize hi ho hw hweight
  simp only [Queue.filled_buffer, hall, bind_ok]
  rcases hm : moves b with ⟨e | reason, c⟩
  · rw [step_of_moves_error hm]
    rfl
  · rw [step_of_moves hm]
    dsimp only [station]
    by_cases hd : c.state.stage = .done
    · rw [if_pos hd, if_pos hd]
      rfl
    · rw [if_neg hd, if_neg hd]
      by_cases hend : reason = .starved ∧ c.input.atEnd = true
      · rw [if_pos (by exact hend), if_pos hend]
        rfl
      · rw [if_neg (by exact hend), if_neg hend]
        rfl

/-- **The patcher on the machine does what the patcher does**, also where its basis fails. -/
theorem implements {stored : β} {verify : Bool} {p : Patcher β} (hp : start stored verify = .ok p)
    (hsize : p.basisSize < 2 ^ 64) : Program.Implements (id : Patcher β → Patcher β) p where
  step {_ _ b} h hi ho _ hmade := by
    have hwritten := written_of_schedule (h.stepped (t := (Transducer.step b).2) rfl)
    obtain ⟨hfits, hsame, -⟩ := covers_of_schedule hp h
    refine advance_does hfits (by rw [hsame]; exact hsize) (Nat.lt_of_le_of_lt hi (by decide))
      (Nat.lt_of_le_of_lt ho (by decide)) ?_
    obtain ⟨size, -, rfl⟩ := start_eq hp
    rw [hwritten, Nat.zero_add]
    exact hmade

end Patcher

end BlockSync
