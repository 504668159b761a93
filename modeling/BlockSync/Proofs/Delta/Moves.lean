import BlockSync.Proofs.Pipe.Finite

/-!
# Moves of a patcher

What holds of a patcher whatever its basis may be, also one that fails or shows something else each
time it is read.

* `Patcher.start_eq`: what a patcher starts with;
* `Patcher.Fits`: a field is not complete, and a copy stays within the size of the basis;
* `Patcher.Halts`: why moves stop;
* `Patcher.outstanding`: how much may still be put out of what has arrived;
* **`Patcher.move_goes`**: no move puts out more than was outstanding; `Patcher.length_step_le`,
  `Patcher.length_le_of_schedule`: nor does a step, even one that fails, nor do all steps of a schedule;
* **`Patcher.thrifty`**: a patcher makes only so much of its delta, and waits only for input or for
  room.
-/

namespace BlockSync

/-- Of a field that is not complete, a queue gives all it has or what is missing. -/
theorem Field.collect_spec {f : Field} {n : Nat} (h : f.bytes.length < n) (q : Queue) :
    ∃ q', q'.ended = q.ended ∧ q'.capacity = q.capacity ∧
      ((∃ bs, f.collect q n = (some bs, ⟨bs⟩, q') ∧ bs.length = n ∧
          f.bytes ++ q.content = bs ++ q'.content) ∨
        (f.collect q n = (none, ⟨f.bytes ++ q.content⟩, q') ∧ q'.content = [] ∧
          (f.bytes ++ q.content).length < n)) := by
  refine ⟨q.drop (n - f.bytes.length), by simp, by simp, ?_⟩
  rw [Field.collect_eq (Nat.le_of_lt h), Queue.content_drop]
  by_cases hn : n ≤ (f.bytes ++ q.content).length
  · refine .inl ⟨_, by rw [if_pos hn], List.length_take_of_le hn, ?_⟩
    rw [List.take_append, List.take_of_length_le (Nat.le_of_lt h), List.append_assoc,
      List.take_append_drop]
  · have hall := Nat.le_of_not_le hn
    refine .inr ⟨by rw [if_neg hn, List.take_of_length_le hall], ?_, Nat.lt_of_not_le hn⟩
    rw [List.length_append] at hall
    exact List.drop_of_length_le (by omega)

namespace Patcher

variable {β : Type} [Basis β] {b c d : Bench (Patcher β)}

/-! ## The start -/

/-- A patcher starts with the size of its basis, if that is told. -/
theorem start_eq {stored : β} {verify : Bool} {p : Patcher β} (h : start stored verify = .ok p) :
    ∃ size, (Basis.size stored).1 = .ok size ∧
      p = ⟨(Basis.size stored).2, size, verify, .mark, .empty, .empty, 0⟩ := by
  unfold start at h
  split at h
  · cases h
  · next size basis' hs =>
    cases h
    exact ⟨size, by rw [hs], by rw [hs]⟩

/-! ## Stages -/

/-- A field is not complete, and what is left of a copy lies within the basis. -/
def StageFits (size : Nat) : PatchStage → Field → Prop
  | .mark, field => field.bytes.length < deltaMark.length
  | .copyRange, field => field.bytes.length < 12
  | .copying offset remaining, field => field = .empty ∧ offset + remaining ≤ size
  | .insertLength, field => field.bytes.length < 4
  | .inserting remaining, field => field = .empty ∧ 0 < remaining
  | .checksum, field => field.bytes.length < digestLength
  | .opcode, field | .done, field => field = .empty

omit [Basis β] in
/-- The stage of a patcher fits the field that it has begun and the size of its basis. -/
def Fits (p : Patcher β) : Prop := StageFits p.basisSize p.stage p.field

theorem fits_of_start {stored : β} {verify : Bool} {p : Patcher β} (h : start stored verify = .ok p) :
    Fits p := by
  obtain ⟨size, -, rfl⟩ := start_eq h
  exact (by decide : 0 < deltaMark.length)

omit [Basis β] in
/-- Why moves stop. -/
def Halts : Halt → Bench (Patcher β) → Prop
  | .starved, c => c.input.content = [] ∧ ∀ offset remaining, c.state.stage ≠ .copying offset remaining
  | .full, c => c.output.room = 0 ∧ ((∃ offset remaining, c.state.stage = .copying offset remaining ∧
      0 < remaining) ∨ ∃ remaining, c.state.stage = .inserting remaining)

omit [Basis β] in
/-- In the last stage moves stop because nothing is left. -/
theorem content_of_done {reason : Halt} (h : Halts reason c) (hd : c.state.stage = .done) :
    c.input.content = [] := by
  cases reason with
  | starved => exact h.1
  | full =>
    rcases h.2 with ⟨_, _, hs, -⟩ | ⟨_, hs⟩ <;> rw [hs] at hd <;> cases hd

/-! ## How moves and steps go on -/

theorem moves_of_next (h : move b = .next c) : moves b = moves c := by
  rw [moves]
  split <;> rename_i h' <;> rw [h] at h' <;> cases h'
  rfl

theorem moves_of_halt {reason : Halt} (h : move b = .halt reason c) :
    moves b = (.ok reason, c) := by
  rw [moves]
  split <;> rename_i h' <;> rw [h] at h' <;> cases h'
  rfl

theorem moves_of_fail {e : TransferError} (h : move b = .fail e c) :
    moves b = (.error e, c) := by
  rw [moves]
  split <;> rename_i h' <;> rw [h] at h' <;> cases h'
  rfl

/-- How a step ends after its moves. -/
theorem step_of_moves {reason : Halt} (h : moves b = (.ok reason, c)) :
    step b = if c.state.stage = .done then (.ok (if c.input.ended then .done else .blocked), c)
      else if reason = .starved ∧ c.input.atEnd then (.error (.corruptedDelta .endedEarly), c)
      else (.ok .blocked, c) := by
  rw [step, h]

theorem step_of_moves_error {e : TransferError} (h : moves b = (.error e, c)) :
    step b = (.error e, c) := by
  rw [step, h]

theorem eq_of_step {result : Except Failure Status} (h : Transducer.step b = (result, c)) :
    (step b).1.mapError .error = result ∧ (step b).2 = c := by
  rw [← Prod.mk.injEq, ← h]
  rfl

/-! ## How much may be put out -/

omit [Basis β] in
theorem outputBound_add (p : Patcher β) (m n : Nat) :
    p.outputBound (m + n) = p.outputBound m + p.outputBound n := Nat.mul_add ..

omit [Basis β] in
theorem outputBound_mono (p : Patcher β) {m n : Nat} (h : m ≤ n) :
    p.outputBound m ≤ p.outputBound n := Nat.mul_le_mul_left _ h

omit [Basis β] in
/-- A byte stands for itself. -/
theorem le_outputBound (p : Patcher β) (n : Nat) : n ≤ p.outputBound n :=
  Nat.le_mul_of_pos_left n (Nat.succ_pos _)

omit [Basis β] in
/-- A byte stands for a copy of the whole basis. -/
theorem basisSize_add_le (p : Patcher β) {m n : Nat} (h : m < n) :
    p.basisSize + p.outputBound m ≤ p.outputBound n := by
  have hs : p.outputBound (m + 1) ≤ p.outputBound n := p.outputBound_mono h
  rw [outputBound_add, outputBound, outputBound] at hs
  simp only [outputBound] at hs ⊢
  omega

/-- What is left of a copy. -/
def rest : PatchStage → Nat
  | .copying _ remaining => remaining
  | _ => 0

omit [Basis β] in
/-- How much may still be put out of what has arrived. -/
def outstanding (b : Bench (Patcher β)) : Nat :=
  rest b.state.stage + b.state.outputBound b.input.content.length

/-- From `b` to `c` no more was put out than was outstanding. -/
structure Covers (b c : Bench (Patcher β)) : Prop where
  basisSize : c.state.basisSize = b.state.basisSize
  le : c.output.content.length + outstanding c ≤ b.output.content.length + outstanding b

omit [Basis β] in
theorem Covers.refl (b : Bench (Patcher β)) : Covers b b := ⟨rfl, Nat.le_refl _⟩

omit [Basis β] in
theorem Covers.trans (h : Covers b c) (h' : Covers c d) : Covers b d :=
  ⟨h'.basisSize.trans h.basisSize, Nat.le_trans h'.le h.le⟩

/-- What a move may lead to. One that fails puts out nothing. -/
def Goes (b : Bench (Patcher β)) : Move (Bench (Patcher β)) → Prop
  | .next c => Fits c.state ∧ Covers b c
  | .halt reason c => Fits c.state ∧ Covers b c ∧ Halts reason c
  | .fail _ c => c.output = b.output

variable {β' : β} {size written : Nat} {verify : Bool} {stage : PatchStage} {field : Field}
  {hasher : Blake3.Hasher} {input output : Queue}

omit [Basis β] in
/-- A field that is not complete takes all input. -/
theorem goes_starved {q : Queue} (hfit : StageFits size stage ⟨field.bytes ++ input.content⟩)
    (hstage : ∀ offset remaining, stage ≠ .copying offset remaining) (hnil : q.content = []) :
    Goes ⟨⟨β', size, verify, stage, field, hasher, written⟩, input, output⟩
      (.halt .starved ⟨⟨β', size, verify, stage, ⟨field.bytes ++ input.content⟩, hasher, written⟩, q,
        output⟩) := by
  refine ⟨hfit, ⟨rfl, ?_⟩, hnil, hstage⟩
  simp only [outstanding, hnil, List.length_nil]
  exact Nat.add_le_add_left (Nat.add_le_add_left (outputBound_mono _ (Nat.zero_le _)) _) _

omit [Basis β] in
/-- A field that is complete leads to a stage for which its bytes stand. -/
theorem goes_field {next : PatchStage} {q : Queue} (hfit : StageFits size next .empty)
    (hrest : rest next ≤ size) (hlt : q.content.length < input.content.length) :
    Goes ⟨⟨β', size, verify, stage, field, hasher, written⟩, input, output⟩
      (.next ⟨⟨β', size, verify, next, .empty, hasher, written⟩, q, output⟩) := by
  refine ⟨hfit, rfl, ?_⟩
  have hb := basisSize_add_le (⟨β', size, verify, stage, field, hasher, written⟩ : Patcher β) hlt
  simp only [outstanding, outputBound] at hb ⊢
  omega

omit [Basis β] in
theorem length_lt_of_collect {f : Field} {bs : Bytes} {q : Queue} {n : Nat}
    (h : f.bytes.length < n) (hl : bs.length = n) (hc : f.bytes ++ input.content = bs ++ q.content) :
    q.content.length < input.content.length := by
  have := congrArg List.length hc
  simp only [List.length_append] at this
  omega

theorem goes_mark (h : StageFits size .mark field) :
    Goes ⟨⟨β', size, verify, .mark, field, hasher, written⟩, input, output⟩
      (move ⟨⟨β', size, verify, .mark, field, hasher, written⟩, input, output⟩) := by
  obtain ⟨q, -, -, ⟨bs, hc, hl, hcont⟩ | ⟨hc, hnil, hl⟩⟩ := Field.collect_spec h input
  · simp only [move, hc, takeMark]
    by_cases hm : bs = deltaMark
    · rw [if_pos hm]
      exact goes_field rfl (Nat.zero_le _) (length_lt_of_collect h hl hcont)
    · rw [if_neg hm]
      rfl
  · simp only [move, hc]
    exact goes_starved hl (by simp) hnil

theorem goes_opcode (h : StageFits size .opcode field) :
    Goes ⟨⟨β', size, verify, .opcode, field, hasher, written⟩, input, output⟩
      (move ⟨⟨β', size, verify, .opcode, field, hasher, written⟩, input, output⟩) := by
  obtain rfl : field = .empty := h
  cases hcont : input.content with
  | nil =>
    have hf : input.front 1 = [] := by rw [input.front_eq, hcont]; rfl
    simp only [move, hf]
    exact ⟨rfl, .refl _, hcont, by simp⟩
  | cons code bs =>
    have hf : input.front 1 = [code] := by rw [input.front_eq, hcont]; rfl
    have hlt : (input.drop 1).content.length < input.content.length := by
      rw [Queue.content_drop, hcont]
      exact Nat.lt_succ_self _
    simp only [move, hf, stageOf]
    split_ifs
    · exact goes_field (by simp [StageFits, Field.empty]) (Nat.zero_le _) hlt
    · exact goes_field (by simp [StageFits, Field.empty]) (Nat.zero_le _) hlt
    · exact goes_field (by simp [StageFits, Field.empty, digestLength]) (Nat.zero_le _) hlt
    · rfl

theorem goes_copyRange (h : StageFits size .copyRange field) :
    Goes ⟨⟨β', size, verify, .copyRange, field, hasher, written⟩, input, output⟩
      (move ⟨⟨β', size, verify, .copyRange, field, hasher, written⟩, input, output⟩) := by
  obtain ⟨q, -, -, ⟨bs, hc, hl, hcont⟩ | ⟨hc, hnil, hl⟩⟩ := Field.collect_spec h input
  · simp only [move, hc, stageOfRange]
    by_cases hw : BigEndian.decode (bs.take 8) + BigEndian.decode (bs.drop 8) ≤ size
    · rw [if_pos hw]
      exact goes_field ⟨rfl, hw⟩ (Nat.le_trans (Nat.le_add_left _ _) hw)
        (length_lt_of_collect h hl hcont)
    · rw [if_neg hw]
      rfl
  · simp only [move, hc]
    exact goes_starved hl (by simp) hnil

theorem goes_copying {offset remaining : Nat} (h : StageFits size (.copying offset remaining) field) :
    Goes ⟨⟨β', size, verify, .copying offset remaining, field, hasher, written⟩, input, output⟩
      (move ⟨⟨β', size, verify, .copying offset remaining, field, hasher, written⟩, input,
        output⟩) := by
  obtain ⟨rfl, hw⟩ : field = .empty ∧ offset + remaining ≤ size := h
  by_cases hz : remaining = 0
  · simp only [move, if_pos hz]
    refine ⟨rfl, rfl, ?_⟩
    simp only [outstanding, rest, hz]
    exact Nat.le_refl _
  by_cases hr : output.room = 0
  · simp only [move, if_neg hz, if_pos hr]
    exact ⟨⟨rfl, hw⟩, .refl _, hr, .inl ⟨offset, remaining, rfl, Nat.pos_of_ne_zero hz⟩⟩
  simp only [move, if_neg hz, if_neg hr]
  rcases hread : Basis.readAt β' offset (min remaining output.room) with ⟨f | bs, β''⟩
  · rfl
  · simp only
    by_cases hl : bs.length = min remaining output.room
    · rw [if_pos hl]
      have hw' : offset + min remaining output.room + (remaining - min remaining output.room) ≤ size := by
        omega
      refine ⟨⟨rfl, hw'⟩, rfl, ?_⟩
      simp only [outstanding, rest, record, outputBound, Queue.content_append, List.length_append,
        List.length_take]
      omega
    · rw [if_neg hl]
      rfl

theorem goes_insertLength (h : StageFits size .insertLength field) :
    Goes ⟨⟨β', size, verify, .insertLength, field, hasher, written⟩, input, output⟩
      (move ⟨⟨β', size, verify, .insertLength, field, hasher, written⟩, input, output⟩) := by
  obtain ⟨q, -, -, ⟨bs, hc, hl, hcont⟩ | ⟨hc, hnil, hl⟩⟩ := Field.collect_spec h input
  · have hlt := length_lt_of_collect h hl hcont
    simp only [move, hc, stageOfLength]
    split
    · exact goes_field rfl (Nat.zero_le _) hlt
    · exact goes_field ⟨rfl, Nat.succ_pos _⟩ (Nat.zero_le _) hlt
  · simp only [move, hc]
    exact goes_starved hl (by simp) hnil

theorem goes_inserting {remaining : Nat} (h : StageFits size (.inserting remaining) field) :
    Goes ⟨⟨β', size, verify, .inserting remaining, field, hasher, written⟩, input, output⟩
      (move ⟨⟨β', size, verify, .inserting remaining, field, hasher, written⟩, input, output⟩) := by
  obtain ⟨rfl, hpos⟩ : field = .empty ∧ 0 < remaining := h
  by_cases hr : output.room = 0
  · simp only [move, if_pos hr]
    exact ⟨⟨rfl, hpos⟩, .refl _, hr, .inr ⟨remaining, rfl⟩⟩
  by_cases he : input.isEmpty = true
  · simp only [move, if_neg hr, if_pos he]
    exact ⟨⟨rfl, hpos⟩, .refl _, input.isEmpty_iff.mp he, by simp⟩
  simp only [move, if_neg hr, if_neg he]
  let count := min remaining (min input.length output.room)
  let p : Patcher β := ⟨β', size, verify, .inserting remaining, .empty, hasher, written⟩
  have hsplit : input.content.length = (input.drop count).content.length + count := by
    rw [Queue.content_drop, List.length_drop, Queue.length_content]
    omega
  -- every byte that is put out has been taken
  have hcover : (output.append (input.front count)).content.length +
      p.outputBound (input.drop count).content.length ≤
        output.content.length + p.outputBound input.content.length := by
    have hself := p.le_outputBound count
    rw [hsplit, outputBound_add, Queue.content_append, List.length_append, List.length_take,
      Queue.length_front]
    omega
  refine ⟨?_, rfl, ?_⟩
  · simp only [Fits, record]
    split_ifs
    · rfl
    · exact ⟨rfl, by omega⟩
  · refine Nat.le_trans (Nat.le_of_eq ?_) (Nat.le_trans hcover ?_)
    · simp only [outstanding, record, rest]
      split_ifs <;> exact congrArg _ (Nat.zero_add _)
    · simp only [outstanding, rest]
      exact Nat.add_le_add_left (Nat.le_add_left _ _) _

theorem goes_checksum (h : StageFits size .checksum field) :
    Goes ⟨⟨β', size, verify, .checksum, field, hasher, written⟩, input, output⟩
      (move ⟨⟨β', size, verify, .checksum, field, hasher, written⟩, input, output⟩) := by
  obtain ⟨q, -, -, ⟨bs, hc, hl, hcont⟩ | ⟨hc, hnil, hl⟩⟩ := Field.collect_spec h input
  · simp only [move, hc, checkDigest]
    split_ifs
    · rfl
    · exact goes_field rfl (Nat.zero_le _) (length_lt_of_collect h hl hcont)
  · simp only [move, hc]
    exact goes_starved hl (by simp) hnil

/-- **No move puts out more than was outstanding.** -/
theorem move_goes (h : Fits b.state) : Goes b (move b) := by
  obtain ⟨⟨β', size, verify, stage, field, hasher, written⟩, input, output⟩ := b
  cases stage with
  | mark => exact goes_mark h
  | opcode => exact goes_opcode h
  | copyRange => exact goes_copyRange h
  | copying => exact goes_copying h
  | insertLength => exact goes_insertLength h
  | inserting => exact goes_inserting h
  | checksum => exact goes_checksum h
  | done =>
    by_cases he : input.isEmpty = true
    · simp only [move, if_pos he]
      exact ⟨h, .refl _, input.isEmpty_iff.mp he, by simp⟩
    · simp only [move, if_neg he]
      rfl

/-- Moves until something is lacking put out no more than was outstanding. -/
theorem moves_goes (h : Fits b.state) :
    match moves b with
    | (.ok reason, c) => Fits c.state ∧ Covers b c ∧ Halts reason c
    | (.error _, c) => c.output.content.length ≤ b.output.content.length + outstanding b := by
  induction b using moves.induct with
  | case1 b c hmove hlt ih =>
    have hgoes := move_goes h
    rw [hmove] at hgoes
    have hrest := ih hgoes.1
    rw [moves_of_next hmove]
    rcases hm : moves c with ⟨e | reason, d⟩ <;> rw [hm] at hrest
    · exact Nat.le_trans hrest hgoes.2.le
    · exact ⟨hrest.1, hgoes.2.trans hrest.2.1, hrest.2.2⟩
  | case2 b reason c hmove =>
    have hgoes := move_goes h
    rw [hmove] at hgoes
    rw [moves_of_halt hmove]
    exact hgoes
  | case3 b e c hmove =>
    have hgoes := move_goes h
    rw [hmove] at hgoes
    rw [moves_of_fail hmove]
    change c.output.content.length ≤ _
    rw [show c.output = b.output from hgoes]
    exact Nat.le_add_right _ _

/-! ## What a patcher waits for -/

omit [Basis β] in
/-- A copy or an insertion is not complete, and what it needs but for room is there. -/
def Owes (b : Bench (Patcher β)) : Prop :=
  (∃ offset remaining, b.state.stage = .copying offset remaining ∧ 0 < remaining) ∨
    ((∃ remaining, b.state.stage = .inserting remaining) ∧
      (b.input.content ≠ [] ∨ b.input.ended = true))

/-- No step puts out more than was outstanding. -/
theorem length_step_le (h : Fits b.state) :
    (step b).2.output.content.length ≤ b.output.content.length + outstanding b := by
  have hm := moves_goes h
  rw [snd_step]
  rcases hmoves : moves b with ⟨e | reason, d⟩ <;> rw [hmoves] at hm
  · exact hm
  · exact Nat.le_trans (Nat.le_add_right _ _) hm.2.1.le

/-- After a step that does not fail the rest is outstanding. -/
theorem step_goes {status : Status} (h : Fits b.state) (hstep : step b = (.ok status, c)) :
    Fits c.state ∧ Covers b c := by
  have hm := moves_goes h
  rcases hmoves : moves b with ⟨e | reason, d⟩ <;> rw [hmoves] at hm
  · rw [step_of_moves_error hmoves] at hstep
    cases hstep
  · rw [step_of_moves hmoves] at hstep
    split_ifs at hstep <;> cases hstep <;> exact ⟨hm.1, hm.2.1⟩

/-- A step that ends blocked has stopped at moves for which room is lacking, if input is left or has
ended. -/
theorem owes_of_blocked (h : Fits b.state) (hstep : step b = (.ok .blocked, c))
    (hin : c.input.content ≠ [] ∨ c.input.ended = true) : Owes c := by
  have hm := moves_goes h
  rcases hmoves : moves b with ⟨e | reason, d⟩ <;> rw [hmoves] at hm
  · rw [step_of_moves_error hmoves] at hstep
    cases hstep
  · obtain ⟨-, -, hh⟩ := hm
    rw [step_of_moves hmoves] at hstep
    by_cases hd : d.state.stage = .done
    · rw [if_pos hd] at hstep
      obtain ⟨hs, rfl⟩ : (Except.ok (if d.input.ended = true then Status.done else .blocked) :
          Except TransferError Status) = .ok .blocked ∧ d = c := by simpa using hstep
      have hended := hin.resolve_left (· (content_of_done hh hd))
      simp [hended] at hs
    · rw [if_neg hd] at hstep
      by_cases hend : reason = .starved ∧ d.input.atEnd = true
      · rw [if_pos hend] at hstep
        cases hstep
      · rw [if_neg hend] at hstep
        obtain rfl : d = c := by simpa using hstep
        cases reason with
        | starved =>
          refine absurd ⟨rfl, d.input.atEnd_iff.mpr ⟨?_, hh.1⟩⟩ hend
          exact hin.resolve_left (· hh.1)
        | full => exact hh.2.imp id fun hs => ⟨hs, hin⟩

/-- With room for output, a patcher that owes some puts it out, unless it is cut short or its basis
fails. -/
theorem move_of_owes (h : Fits b.state) (ho : Owes b) (hr : 0 < b.output.room) :
    (∃ c, move b = .next c ∧ b.output.content.length < c.output.content.length) ∨
      (∃ e c, move b = .fail e c) ∨
      (move b = .halt .starved b ∧ b.input.ended = true ∧ b.input.content = [] ∧
        b.state.stage ≠ .done) := by
  obtain ⟨⟨β', size, verify, stage, field, hasher, written⟩, input, output⟩ := b
  have hr' : ¬ output.room = 0 := Nat.pos_iff_ne_zero.mp hr
  rcases ho with ⟨offset, remaining, rfl, hpos⟩ | ⟨⟨remaining, rfl⟩, hin⟩
  · simp only [move, if_neg (Nat.pos_iff_ne_zero.mp hpos), if_neg hr']
    rcases hread : Basis.readAt β' offset (min remaining output.room) with ⟨f | bs, β''⟩
    · exact .inr (.inl ⟨_, _, rfl⟩)
    · simp only
      by_cases hl : bs.length = min remaining output.room
      · rw [if_pos hl]
        refine .inl ⟨_, rfl, ?_⟩
        simp only [Queue.content_append, List.length_append, List.length_take]
        omega
      · rw [if_neg hl]
        exact .inr (.inl ⟨_, _, rfl⟩)
  · obtain ⟨rfl, hpos⟩ : field = .empty ∧ 0 < remaining := h
    by_cases he : input.isEmpty = true
    · have hnil := input.isEmpty_iff.mp he
      refine .inr (.inr ⟨by simp only [move, if_neg hr', if_pos he], hin.resolve_left (· hnil), hnil,
        by simp⟩)
    · have hlen : 0 < input.length := by
        rw [← Queue.length_content]
        exact List.length_pos_iff.mpr fun hn => he (input.isEmpty_iff.mpr hn)
      refine .inl ⟨_, by simp only [move, if_neg hr', if_neg he]; rfl, ?_⟩
      simp only [Queue.content_append, List.length_append, List.length_take, Queue.length_front]
      omega

/-- What is owed is put out by the next step that ends blocked. -/
theorem pays_of_owes (h : Fits b.state) (ho : Owes b) (hr : 0 < b.output.room)
    (hstep : step b = (.ok .blocked, c)) : b.output.content.length < c.output.content.length := by
  rcases move_of_owes h ho hr with ⟨d, hmove, hlt⟩ | ⟨e, d, hmove⟩ | ⟨hmove, hended, hnil, hstage⟩
  · refine Nat.lt_of_lt_of_le hlt ?_
    have hgrows := (moves_left d).2.content.length_le
    rw [← moves_of_next hmove] at hgrows
    rcases hmoves : moves b with ⟨e | reason, d'⟩ <;> rw [hmoves] at hgrows
    · rw [step_of_moves_error hmoves] at hstep
      cases hstep
    · rw [step_of_moves hmoves] at hstep
      split_ifs at hstep <;> cases hstep <;> exact hgrows
  · rw [step_of_moves_error (moves_of_fail hmove)] at hstep
    cases hstep
  · rw [step_of_moves (moves_of_halt hmove), if_neg hstage,
      if_pos ⟨rfl, b.input.atEnd_iff.mpr ⟨hended, hnil⟩⟩] at hstep
    cases hstep

omit [Basis β] in
theorem Owes.served {fed taken : Bytes} (h : Owes b) (hv : b.Served c fed taken) : Owes c := by
  unfold Owes at h ⊢
  rw [hv.state]
  refine h.imp id fun ⟨hs, hin⟩ => ⟨hs, hin.imp (fun hne => ?_) fun he => (hv.ended he).2⟩
  rw [hv.input]
  simp [hne]

theorem step_of_transducer {status : Status} (h : Transducer.step b = (.ok status, c)) :
    step b = (.ok status, c) := by
  obtain ⟨hs, rfl⟩ := eq_of_step h
  rcases hstep : step b with ⟨e | status', c'⟩ <;> rw [hstep] at hs
  · cases hs
  · cases hs
    rfl

omit [Basis β] in
/-- How much a patcher may put out when at most `n` more bytes are to arrive. -/
def Due (b : Bench (Patcher β)) (n d : Nat) : Prop :=
  Fits b.state ∧ outstanding b + b.state.outputBound n ≤ d

theorem due_of_start {stored : β} {verify : Bool} {p : Patcher β} (h : start stored verify = .ok p)
    {n m : Nat} (hn : n ≤ m) (input output : Queue) (hnil : input.content = []) :
    Due ⟨p, input, output⟩ n (p.outputBound m) := by
  refine ⟨fits_of_start h, Nat.le_trans (Nat.le_of_eq ?_) (p.outputBound_mono hn)⟩
  obtain ⟨size, -, rfl⟩ := start_eq h
  simp only [outstanding, rest, hnil]
  exact Nat.zero_add _

/-- **A patcher makes only so much of its delta, and waits only for input or for room**, whatever its
basis is. -/
theorem thrifty : Transducer.Thrifty (Due : Bench (Patcher β) → Nat → Nat → Prop) Owes where
  served {b c fed taken n d} h hv hn := by
    refine ⟨by rw [hv.state]; exact h.1, Nat.le_trans (Nat.le_of_eq ?_) h.2⟩
    have hn' : n = fed.length + (n - fed.length) := by omega
    rw [outstanding, outstanding, hv.state, hv.input, List.length_append, outputBound_add]
    nth_rewrite 2 [hn']
    rw [outputBound_add]
    omega
  step {b c status n d} h hstep := by
    have hgrows : b.output.content.length ≤ (Transducer.step b).2.output.content.length :=
      (orderly.output b).content.length_le
    rw [hstep] at hgrows
    simp only at hgrows
    obtain ⟨hfits, hcovers⟩ := step_goes h.1 (step_of_transducer hstep)
    have hle := hcovers.le
    have hdue := h.2
    have hbound : c.state.outputBound n = b.state.outputBound n := by
      rw [outputBound, outputBound, hcovers.basisSize]
    refine ⟨c.output.content.length - b.output.content.length, by omega, by omega, hfits, ?_⟩
    rw [hbound]
    omega
  error {b c f n d} _ hstep := by
    obtain ⟨hs, -⟩ := eq_of_step hstep
    rcases hr : (step b).1 with e | status <;> rw [hr] at hs
    · exact ⟨e, (Except.error.inj hs).symm⟩
    · cases hs
  waits {b c n d} h hstep := by
    by_cases hin : c.input.content = [] ∧ c.input.ended = false
    · exact .inl hin
    · refine .inr (owes_of_blocked h.1 (step_of_transducer hstep) ?_)
      by_cases hnil : c.input.content = []
      · exact .inr (by simpa [hnil] using hin)
      · exact .inl hnil
  stays := Owes.served
  pays h ho hr hstep := pays_of_owes h.1 ho hr (step_of_transducer hstep)

/-! ## Schedules -/

section

variable {stored : β} {verify : Bool} {p : Patcher β} {fed taken : Bytes}

/-- As long as no step fails, what was put out and what is outstanding are no more than what was fed
may stand for. -/
theorem covers_of_schedule {status : Status} (hp : start stored verify = .ok p)
    (h : Schedule p fed taken (.ok status) b) :
    Fits b.state ∧ b.state.basisSize = p.basisSize ∧
      (taken ++ b.output.content).length + outstanding b ≤ p.outputBound fed.length := by
  generalize hr : (.ok status : Except Failure Status) = result at h
  induction h generalizing status with
  | @start input output hi ho =>
    obtain ⟨hfits, hle⟩ := due_of_start hp (Nat.le_refl 0) input output hi
    refine ⟨hfits, rfl, ?_⟩
    rw [ho]
    exact Nat.le_trans (Nat.le_of_eq (Nat.zero_add _)) (Nat.le_of_add_right_le hle)
  | @served fed taken more drained _ s t _ hv ih =>
    obtain ⟨hfits, hsize, hle⟩ := ih rfl
    rw [← hv.state] at hfits hsize
    refine ⟨hfits, hsize, ?_⟩
    have hmore : t.state.outputBound more.length = p.outputBound more.length := by
      rw [outputBound, outputBound, hsize]
    rw [hv.output, ← List.append_assoc] at hle
    simp only [outstanding, hv.state, hv.input, List.length_append, outputBound_add] at hle hmore ⊢
    omega
  | @stepped fed taken _ _ s t _ hstep ih =>
    obtain ⟨hfits, hsize, hle⟩ := ih rfl
    subst hr
    obtain ⟨hfits', hcovers⟩ := step_goes hfits (step_of_transducer hstep)
    refine ⟨hfits', hcovers.basisSize.trans hsize, ?_⟩
    have := hcovers.le
    rw [List.length_append] at hle ⊢
    omega

/-- **A schedule puts out no more than what was fed may stand for**, whatever the basis gives. -/
theorem length_le_of_schedule {result : Except Failure Status} (hp : start stored verify = .ok p)
    (h : Schedule p fed taken result b) :
    (taken ++ b.output.content).length ≤ p.outputBound fed.length := by
  cases h with
  | start hi ho =>
    rw [ho]
    exact Nat.zero_le _
  | served h hv =>
    obtain ⟨-, -, hle⟩ := covers_of_schedule hp (h.served hv)
    exact Nat.le_trans (Nat.le_add_right _ _) hle
  | stepped h hstep =>
    obtain ⟨hfits, -, hle⟩ := covers_of_schedule hp h
    have hlength := length_step_le hfits
    obtain ⟨-, rfl⟩ := eq_of_step hstep
    rw [List.length_append] at hle ⊢
    omega

end

end Patcher

end BlockSync
