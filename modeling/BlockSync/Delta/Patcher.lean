import BlockSync.Basis
import BlockSync.Delta.Instruction
import BlockSync.Blake3.Hasher
import BlockSync.Transducer

/-!
# Applying deltas

The transducer from a delta to the new file. Copies are read from the basis and insertions are taken
from the delta, both piece by piece as there is room for output. The digest of what was written is
compared with the one that closes the delta.

* `PatchStage`: what is read or written next;
* `Patcher.move`: one move, which takes a field, or as much of a copy or insertion as there is room
  for;
* `Patcher.moves`: moves until input or room is lacking;
* `Patcher.step`: the stream has to end behind its final record.
-/

namespace BlockSync

/-- What is read or written next. -/
inductive PatchStage where
  | mark
  | opcode
  /-- The offset and length of a copy. -/
  | copyRange
  /-- The rest of a copy. -/
  | copying (offset remaining : Nat)
  | insertLength
  /-- The rest of an insertion. -/
  | inserting (remaining : Nat)
  /-- The digest of the new file. -/
  | checksum
  | done
deriving DecidableEq, Repr

/-- The state of applying a delta. -/
structure Patcher (β : Type) where
  basis : β
  basisSize : Nat
  /-- Whether the digest has to agree. -/
  verify : Bool
  stage : PatchStage
  field : Field
  hasher : Blake3.Hasher
  /-- The number of bytes written. -/
  written : Nat

/-- What stops the moves of a patcher. -/
inductive Halt where
  /-- There is no input. -/
  | starved
  /-- There is no room for output. -/
  | full
deriving DecidableEq, Repr

/-- What a move leads to. -/
inductive Move (α : Type) where
  /-- Another move can follow. -/
  | next (state : α)
  /-- Nothing can be done now. -/
  | halt (reason : Halt) (state : α)
  /-- The delta or the basis is no good. -/
  | fail (cause : TransferError) (state : α)

namespace Patcher

variable {β : Type} [Basis β]

/-- A patch of a basis. -/
def start (basis : β) (verify : Bool) : Except TransferError (Patcher β) :=
  match Basis.size basis with
  | (.error f, _) => .error (.io f)
  | (.ok size, basis) => .ok ⟨basis, size, verify, .mark, .empty, .empty, 0⟩

/-- The mark is complete; a wrong one stays and is refused again. -/
def takeMark (p : Patcher β) (bs : Bytes) : Except TransferError (Patcher β) :=
  if bs = deltaMark then .ok { p with stage := .opcode, field := .empty }
  else .error (.corruptedDelta (.wrongMark bs))

/-- The stage that an opcode leads to. -/
def stageOf (code : UInt8) : Except TransferError PatchStage :=
  if code = copyOpcode then .ok .copyRange
  else if code = insertOpcode then .ok .insertLength
  else if code = closeOpcode then .ok .checksum
  else .error (.corruptedDelta (.unknownOpcode code))

/-- The stage that a copy's range leads to, if the range lies within the basis. -/
def stageOfRange (basisSize : Nat) (bs : Bytes) : Except TransferError PatchStage :=
  let offset := BigEndian.decode (bs.take 8)
  let length := BigEndian.decode (bs.drop 8)
  if offset + length ≤ basisSize then .ok (.copying offset length)
  else .error (.copyOutOfBounds offset length basisSize)

/-- The stage that the length of an insertion leads to. -/
def stageOfLength (bs : Bytes) : PatchStage :=
  match BigEndian.decode bs with
  | 0 => .opcode
  | n + 1 => .inserting (n + 1)

/-- The recorded digest agrees, or need not. -/
def checkDigest (p : Patcher β) (recorded : Digest) : Except TransferError Unit :=
  let actual := p.hasher.digest
  if p.verify && recorded != actual then .error (.checksumMismatch recorded.bytes actual.bytes)
  else .ok ()

/-- Bytes are written. -/
def record (p : Patcher β) (bs : Bytes) : Patcher β :=
  { p with hasher := p.hasher.update bs, written := p.written + bs.length }

/-- One move. -/
def move (s : Bench (Patcher β)) : Move (Bench (Patcher β)) :=
  let ⟨p, input, output⟩ := s
  match p.stage with
  | .mark =>
    match p.field.collect input deltaMark.length with
    | (none, field, input) => .halt .starved ⟨{ p with field := field }, input, output⟩
    | (some bs, field, input) =>
      match p.takeMark bs with
      | .error e => .fail e ⟨{ p with field := field }, input, output⟩
      | .ok p => .next ⟨p, input, output⟩
  | .opcode =>
    match input.front 1 with
    | [] => .halt .starved ⟨p, input, output⟩
    | code :: _ =>
      match stageOf code with
      | .error e => .fail e ⟨p, input.drop 1, output⟩
      | .ok stage => .next ⟨{ p with stage := stage }, input.drop 1, output⟩
  | .copyRange =>
    match p.field.collect input 12 with
    | (none, field, input) => .halt .starved ⟨{ p with field := field }, input, output⟩
    | (some bs, _, input) =>
      match stageOfRange p.basisSize bs with
      | .error e => .fail e ⟨{ p with field := .empty }, input, output⟩
      | .ok stage => .next ⟨{ p with stage := stage, field := .empty }, input, output⟩
  | .copying offset remaining =>
    if remaining = 0 then .next ⟨{ p with stage := .opcode }, input, output⟩
    else if output.room = 0 then .halt .full ⟨p, input, output⟩
    else
      let count := min remaining output.room
      match Basis.readAt p.basis offset count with
      | (.error f, basis) =>
        .fail (.io f) ⟨{ p with basis := basis }, input, output⟩
      | (.ok bs, basis) =>
        let p := { p with basis := basis }
        if bs.length = count then
          let p := { p with stage := .copying (offset + count) (remaining - count) }
          .next ⟨p.record bs, input, output.append bs⟩
        else .fail (.io .unexpectedEof) ⟨p, input, output⟩
  | .insertLength =>
    match p.field.collect input 4 with
    | (none, field, input) => .halt .starved ⟨{ p with field := field }, input, output⟩
    | (some bs, _, input) =>
      .next ⟨{ p with stage := stageOfLength bs, field := .empty }, input, output⟩
  | .inserting remaining =>
    if output.room = 0 then .halt .full ⟨p, input, output⟩
    else if input.isEmpty then .halt .starved ⟨p, input, output⟩
    else
      let count := min remaining (min input.length output.room)
      let bs := input.front count
      let stage := if remaining = count then .opcode else .inserting (remaining - count)
      .next ⟨{ p with stage := stage }.record bs, input.drop count, output.append bs⟩
  | .checksum =>
    match p.field.collect input digestLength with
    | (none, field, input) => .halt .starved ⟨{ p with field := field }, input, output⟩
    | (some bs, _, input) =>
      let p := { p with field := .empty }
      match p.checkDigest (.ofInitial bs) with
      | .error e => .fail e ⟨p, input, output⟩
      | .ok () => .next ⟨{ p with stage := .done }, input, output⟩
  | .done =>
    if input.isEmpty then .halt .starved ⟨p, input, output⟩
    else .fail (.corruptedDelta (.trailingBytes input.length)) ⟨p, input, output⟩

/-! ## Moves until something is lacking -/

/-- The stages in the order in which they can follow without input or output. -/
def stageRank : PatchStage → Nat
  | .copyRange | .insertLength => 2
  | .mark | .copying _ _ | .inserting _ | .checksum => 1
  | .opcode | .done => 0

/-- What bounds the number of moves: each takes input, or fills room, or leads to a lower stage. -/
def weight (s : Bench (Patcher β)) : Nat :=
  3 * (s.input.length + s.output.room) + stageRank s.state.stage

theorem stageRank_le (stage : PatchStage) : stageRank stage ≤ 2 := by
  cases stage <;> simp [stageRank]

theorem stageRank_stageOfRange {size : Nat} {bs : Bytes} {stage : PatchStage}
    (h : stageOfRange size bs = .ok stage) : stageRank stage ≤ 1 := by
  unfold stageOfRange at h
  dsimp only at h
  split at h
  · cases h; simp [stageRank]
  · cases h

theorem stageRank_stageOfLength (bs : Bytes) : stageRank (stageOfLength bs) ≤ 1 := by
  unfold stageOfLength; split <;> simp [stageRank]

theorem weight_lt_of_move {s s' : Bench (Patcher β)} (h : move s = .next s') :
    weight s' < weight s := by
  obtain ⟨p, input, output⟩ := s
  unfold move at h
  dsimp only at h
  split at h
  all_goals rename_i hs
  · split at h
    · cases h
    · next hf =>
      have := Field.length_collect hf
      split at h
      · cases h
      · next hm =>
        cases h
        unfold takeMark at hm
        split at hm
        · cases hm; simp only [weight, hs, stageRank]; omega
        · cases hm
  · split at h
    · cases h
    · next hf =>
      have hl : 0 < input.length := by
        have := congrArg List.length hf
        simp only [Queue.length_front, List.length_cons] at this
        omega
      split at h
      · cases h
      · next stage hc =>
        cases h
        have := stageRank_le stage
        simp only [weight, Queue.length_drop]; omega
  · split at h
    · cases h
    · next hf =>
      have := Field.length_collect hf
      split at h
      · cases h
      · next hc =>
        cases h
        have := stageRank_stageOfRange hc
        have : stageRank .copyRange = 2 := rfl
        simp only [weight, hs]; omega
  · split at h
    · cases h; simp only [weight, hs, stageRank]; omega
    · split at h
      · cases h
      · split at h
        · cases h
        · split at h
          · next hlen =>
            cases h
            simp only [weight, hs, stageRank, record, Queue.room_append]; omega
          · cases h
  · split at h
    · cases h
    · next bs _ _ hf =>
      have := Field.length_collect hf
      cases h
      have := stageRank_stageOfLength bs
      have : stageRank .insertLength = 2 := rfl
      simp only [weight, hs]; omega
  · split at h
    · cases h
    · split at h
      · cases h
      · next hr hi =>
        cases h
        simp only [Queue.isEmpty, beq_iff_eq] at hi
        split
        · next hc =>
          have : stageRank .opcode = 0 := rfl
          have : ∀ n, stageRank (.inserting n) = 1 := fun _ => rfl
          simp only [weight, record, hs, this, Queue.length_drop, Queue.room_append]; omega
        · next hc =>
          have : ∀ n, stageRank (.inserting n) = 1 := fun _ => rfl
          simp only [weight, record, hs, this, Queue.length_drop, Queue.room_append]; omega
  · split at h
    · cases h
    · next hf =>
      have := Field.length_collect hf
      split at h
      · cases h
      · cases h; simp only [weight, hs, stageRank]; omega
  · split at h <;> cases h

/-- Moves until input or room is lacking. -/
def moves (s : Bench (Patcher β)) : Except TransferError Halt × Bench (Patcher β) :=
  match h : move s with
  | .next s' =>
    have := weight_lt_of_move h
    moves s'
  | .halt reason s => (.ok reason, s)
  | .fail e s => (.error e, s)
termination_by weight s

/-- A bound on the output that `available` bytes of input lead to: at most a copy of the whole basis
for every byte. -/
def outputBound (p : Patcher β) (available : Nat) : Nat := (p.basisSize + 1) * available

/-- One step. -/
def step (s : Bench (Patcher β)) : Except TransferError Status × Bench (Patcher β) :=
  match moves s with
  | (.error e, s) => (.error e, s)
  | (.ok reason, s) =>
    if s.state.stage = .done then (.ok (if s.input.ended then .done else .blocked), s)
    else if reason = .starved ∧ s.input.atEnd then (.error (.corruptedDelta .endedEarly), s)
    else (.ok .blocked, s)

end Patcher

instance {β : Type} [Basis β] : Transducer (Patcher β) where
  step s :=
    let (result, s) := Patcher.step s
    (result.mapError .error, s)

end BlockSync
