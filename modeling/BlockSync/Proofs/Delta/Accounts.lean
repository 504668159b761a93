import BlockSync.Proofs.Basis
import BlockSync.Proofs.Delta.Moves

/-!
# The accounts of a patcher

What a patcher has put out, counted and digested, and what it has read, whatever its basis does, and
however its steps have ended.

* `Patcher.Effect`, **`Patcher.effect_of_move`**: all that a move can do but for the input it takes;
* `Patcher.Reach`: the states that a patcher can be in, with any queues before it in each step;
* **`Patcher.accounts_of_reach`**: it has counted and digested what it has put out;
* **`Patcher.requests_within`**: it has read only within the size of its basis;
* **`Patcher.readFails_of_step`**: a read that fails leaves all but the basis as it was.
-/

namespace BlockSync

namespace Patcher

variable {β γ : Type} [Basis β] [Basis γ] {b c d : Bench (Patcher β)}

/-! ## What a move does -/

omit [Basis β] in
/-- An error tells of the delta, and of no fault of the basis. -/
def TellsOfDelta (c : Bench (Patcher β)) : TransferError → Prop
  | .io _ => False
  | .corruptedDelta (.trailingBytes n) => n = c.input.length
  | _ => True

/-- What a move does but for the input it takes. -/
inductive Effect (b : Bench (Patcher β)) : Move (Bench (Patcher β)) → Prop
  /-- It takes a field, stops or refuses the delta. -/
  | quiet {m : Move (Bench (Patcher β))} {stage : PatchStage} {field : Field} {input : Queue}
      (hleft : m.left = ⟨{ b.state with stage := stage, field := field }, input, b.output⟩)
      (hstage : ∀ offset remaining, stage = .copying offset remaining →
        b.state.stage = stage ∨ offset + remaining ≤ b.state.basisSize)
      (hfail : ∀ e c, m = .fail e c → TellsOfDelta c e) : Effect b m
  /-- It writes a part of a copy. -/
  | copied {offset remaining : Nat} {bs : Bytes} {basis : β}
      (hstage : b.state.stage = .copying offset remaining)
      (hread : Basis.readAt b.state.basis offset (min remaining b.output.room) = (.ok bs, basis))
      (hl : bs.length = min remaining b.output.room) :
      Effect b (.next ⟨Patcher.record
        { b.state with
          basis := basis
          stage := .copying (offset + min remaining b.output.room)
            (remaining - min remaining b.output.room) } bs, b.input, b.output.append bs⟩)
  /-- It does not get a part of a copy. -/
  | refused {offset remaining : Nat} {f : Fault}
      (hstage : b.state.stage = .copying offset remaining) (hpos : 0 < remaining)
      (hroom : 0 < b.output.room)
      (hread : Basis.Refuses b.state.basis offset (min remaining b.output.room) f) :
      Effect b (.fail (.io f) ⟨{ b.state with
        basis := (Basis.readAt b.state.basis offset (min remaining b.output.room)).2 },
        b.input, b.output⟩)
  /-- It writes a part of an insertion. -/
  | inserted {bs : Bytes} {stage : PatchStage} {input : Queue} (hl : bs.length ≤ b.output.room)
      (hstage : ∀ offset remaining, stage ≠ .copying offset remaining) :
      Effect b (.next ⟨Patcher.record { b.state with stage := stage } bs, input,
        b.output.append bs⟩)

variable {β' : β} {size written : Nat} {verify : Bool} {stage : PatchStage} {field : Field}
  {hasher : Blake3.Hasher} {input output : Queue}

theorem Effect.of_next {next : PatchStage} {f : Field} {q : Queue}
    (h : ∀ offset remaining, next = .copying offset remaining → offset + remaining ≤ size) :
    Effect ⟨⟨β', size, verify, stage, field, hasher, written⟩, input, output⟩
      (.next ⟨⟨β', size, verify, next, f, hasher, written⟩, q, output⟩) := by
  refine .quiet rfl (fun offset remaining hs => .inr (h offset remaining hs)) fun e c hm => ?_
  cases hm

theorem Effect.of_halt {reason : Halt} {f : Field} {q : Queue} :
    Effect ⟨⟨β', size, verify, stage, field, hasher, written⟩, input, output⟩
      (.halt reason ⟨⟨β', size, verify, stage, f, hasher, written⟩, q, output⟩) := by
  refine .quiet rfl (fun _ _ _ => .inl rfl) fun e c hm => ?_
  cases hm

theorem Effect.of_fail {e : TransferError} {f : Field} {q : Queue}
    (h : TellsOfDelta ⟨⟨β', size, verify, stage, f, hasher, written⟩, q, output⟩ e) :
    Effect ⟨⟨β', size, verify, stage, field, hasher, written⟩, input, output⟩
      (.fail e ⟨⟨β', size, verify, stage, f, hasher, written⟩, q, output⟩) := by
  refine .quiet rfl (fun _ _ _ => .inl rfl) fun e' c' hm => ?_
  cases hm
  exact h

theorem effect_of_copying {offset remaining : Nat} :
    Effect ⟨⟨β', size, verify, .copying offset remaining, field, hasher, written⟩, input, output⟩
      (move ⟨⟨β', size, verify, .copying offset remaining, field, hasher, written⟩, input,
        output⟩) := by
  simp only [move]
  by_cases hz : remaining = 0
  · rw [if_pos hz]
    exact .of_next (by simp)
  by_cases hr : output.room = 0
  · rw [if_neg hz, if_pos hr]
    exact .of_halt
  rw [if_neg hz, if_neg hr]
  rcases hread : Basis.readAt β' offset (min remaining output.room) with ⟨f | bs, β''⟩
  · have hβ : β'' = (Basis.readAt β' offset (min remaining output.room)).2 := by rw [hread]
    rw [hβ]
    exact .refused rfl (Nat.pos_of_ne_zero hz) (Nat.pos_of_ne_zero hr) (.inl (by rw [hread]))
  · dsimp only
    by_cases hl : bs.length = min remaining output.room
    · rw [if_pos hl]
      exact .copied rfl hread hl
    · have hβ : β'' = (Basis.readAt β' offset (min remaining output.room)).2 := by rw [hread]
      rw [if_neg hl, hβ]
      exact .refused rfl (Nat.pos_of_ne_zero hz) (Nat.pos_of_ne_zero hr)
        (.inr ⟨rfl, bs, by rw [hread], hl⟩)

theorem effect_of_inserting {remaining : Nat} :
    Effect ⟨⟨β', size, verify, .inserting remaining, field, hasher, written⟩, input, output⟩
      (move ⟨⟨β', size, verify, .inserting remaining, field, hasher, written⟩, input, output⟩) := by
  simp only [move]
  by_cases hr : output.room = 0
  · rw [if_pos hr]
    exact .of_halt
  by_cases he : input.isEmpty = true
  · rw [if_neg hr, if_pos he]
    exact .of_halt
  rw [if_neg hr, if_neg he]
  refine .inserted (b := ⟨⟨β', size, verify, _, field, hasher, written⟩, input, output⟩) ?_ ?_
  · rw [Queue.length_front]
    dsimp only
    omega
  · intro offset rest
    split <;> simp

/-- **All that a move can do** but for the input it takes. -/
theorem effect_of_move (b : Bench (Patcher β)) : Effect b (move b) := by
  obtain ⟨⟨β', size, verify, stage, field, hasher, written⟩, input, output⟩ := b
  cases stage with
  | mark =>
    simp only [move]
    rcases field.collect input deltaMark.length with ⟨_ | bs, f, q⟩
    · exact .of_halt
    · simp only [takeMark]
      by_cases hm : bs = deltaMark
      · rw [if_pos hm]
        exact .of_next (by simp)
      · rw [if_neg hm]
        exact .of_fail trivial
  | opcode =>
    simp only [move]
    rcases input.front 1 with _ | ⟨code, _⟩
    · exact .of_halt
    · simp only [stageOf]
      by_cases hc : code = copyOpcode
      · rw [if_pos hc]
        exact .of_next (by simp)
      rw [if_neg hc]
      by_cases hi : code = insertOpcode
      · rw [if_pos hi]
        exact .of_next (by simp)
      rw [if_neg hi]
      by_cases hcl : code = closeOpcode
      · rw [if_pos hcl]
        exact .of_next (by simp)
      · rw [if_neg hcl]
        exact .of_fail trivial
  | copyRange =>
    simp only [move]
    rcases field.collect input 12 with ⟨_ | bs, f, q⟩
    · exact .of_halt
    · simp only [stageOfRange]
      by_cases hw : BigEndian.decode (bs.take 8) + BigEndian.decode (bs.drop 8) ≤ size
      · rw [if_pos hw]
        refine .of_next fun offset remaining hs => ?_
        cases hs
        exact hw
      · rw [if_neg hw]
        exact .of_fail trivial
  | copying => exact effect_of_copying
  | insertLength =>
    simp only [move]
    rcases field.collect input 4 with ⟨_ | bs, f, q⟩
    · exact .of_halt
    · refine .of_next fun offset remaining => ?_
      unfold stageOfLength
      split <;> simp
  | inserting => exact effect_of_inserting
  | checksum =>
    simp only [move]
    rcases field.collect input digestLength with ⟨_ | bs, f, q⟩
    · exact .of_halt
    · simp only [checkDigest]
      by_cases hd : (verify && Digest.ofInitial bs != hasher.digest) = true
      · rw [if_pos hd]
        exact .of_fail trivial
      · rw [if_neg hd]
        exact .of_next (by simp)
  | done =>
    simp only [move]
    by_cases he : input.isEmpty = true
    · rw [if_pos he]
      exact .of_halt
    · rw [if_neg he]
      exact .of_fail rfl

/-! ## What was put out -/

omit [Basis β] in
/-- What was put out between two benches has been digested and counted. -/
def Accounts (b c : Bench (Patcher β)) : Prop :=
  ∃ made, c.output.content = b.output.content ++ made ∧
    c.state.hasher = b.state.hasher.update made ∧ c.state.written = b.state.written + made.length

omit [Basis β] in
theorem Accounts.refl (b : Bench (Patcher β)) : Accounts b b :=
  ⟨[], (List.append_nil _).symm, rfl, rfl⟩

omit [Basis β] in
theorem Accounts.trans (h : Accounts b c) (h' : Accounts c d) : Accounts b d := by
  obtain ⟨made, ho, hh, hw⟩ := h
  obtain ⟨more, ho', hh', hw'⟩ := h'
  refine ⟨made ++ more, by rw [ho', ho, List.append_assoc], ?_, ?_⟩
  · rw [hh', hh, Blake3.Hasher.update_append]
  · rw [hw', hw, List.length_append, Nat.add_assoc]

omit [Basis β] in
theorem Accounts.written_le (h : Accounts b c) : b.state.written ≤ c.state.written := by
  obtain ⟨made, -, -, hw⟩ := h
  rw [hw]
  exact Nat.le_add_right _ _

omit [Basis β] in
theorem accounts_record {p : Patcher β} {bs : Bytes} (input : Queue)
    (hl : bs.length ≤ b.output.room) (hh : p.hasher = b.state.hasher)
    (hw : p.written = b.state.written) : Accounts b ⟨p.record bs, input, b.output.append bs⟩ := by
  refine ⟨bs, ?_, ?_, ?_⟩
  · rw [Queue.content_append, List.take_of_length_le hl]
  · rw [record, hh]
  · rw [record, hw]

theorem accounts_of_effect {m : Move (Bench (Patcher β))} (h : Effect b m) : Accounts b m.left := by
  cases h with
  | quiet hleft =>
    rw [hleft]
    exact ⟨[], (List.append_nil _).symm, rfl, rfl⟩
  | copied _ _ hl => exact accounts_record _ (by omega) rfl rfl
  | refused => exact ⟨[], (List.append_nil _).symm, rfl, rfl⟩
  | inserted hl => exact accounts_record _ hl rfl rfl

theorem accounts_moves (b : Bench (Patcher β)) : Accounts b (moves b).2 :=
  moves_keeps (P := Accounts b) (fun c hc => hc.trans (accounts_of_effect (effect_of_move c)))
    (.refl b)

/-- **A step digests and counts what it puts out**, however it ends. -/
theorem accounts_of_step {result : Except Failure Status} (h : Transducer.step b = (result, c)) :
    Accounts b c := by
  obtain ⟨-, rfl⟩ := eq_of_step h
  rw [snd_step]
  exact accounts_moves b

/-! ## What was read -/

omit [Basis β] in
/-- A patcher of a basis of this size has to read only within it, and `Good` holds of its basis. -/
structure Within (Good : β → Prop) (size : Nat) (p : Patcher β) : Prop where
  basis : Good p.basis
  basisSize : p.basisSize = size
  copy : ∀ offset remaining, p.stage = .copying offset remaining → offset + remaining ≤ size

theorem within_of_effect {Good : β → Prop} {m : Move (Bench (Patcher β))}
    (hg : Basis.Withstands Good size) (h : Within Good size b.state) (he : Effect b m) :
    Within Good size m.left.state := by
  cases he with
  | quiet hleft hstage =>
    rw [hleft]
    refine ⟨h.basis, h.basisSize, fun offset remaining hs => ?_⟩
    rcases hstage offset remaining hs with hb | hle
    · exact h.copy offset remaining (hb.trans hs)
    · rwa [h.basisSize] at hle
  | @copied offset remaining bs basis hstage hread hl =>
    have hle := h.copy offset remaining hstage
    refine ⟨?_, h.basisSize, fun offset' remaining' hs => ?_⟩
    · have hgood := hg b.state.basis offset (min remaining b.output.room) h.basis (by omega)
      rwa [hread] at hgood
    · cases hs
      omega
  | @refused offset remaining f hstage =>
    have hle := h.copy offset remaining hstage
    exact ⟨hg _ _ _ h.basis (by omega), h.basisSize, h.copy⟩
  | inserted hl hstage => exact ⟨h.basis, h.basisSize, fun _ _ hs => absurd hs (hstage _ _)⟩

/-- **What reads within the size of a basis do not break is kept by every step**, however it ends. -/
theorem within_of_step {Good : β → Prop} {result : Except Failure Status}
    (hg : Basis.Withstands Good size) (h : Within Good size b.state)
    (hstep : Transducer.step b = (result, c)) :
    Within Good size c.state := by
  obtain ⟨-, rfl⟩ := eq_of_step hstep
  rw [snd_step]
  exact moves_keeps (P := fun d => Within Good size d.state)
    (fun d hd => within_of_effect hg hd (effect_of_move d)) h

/-! ## Reads that fail -/

/-- A bench at which a read for a copy fails, and what that leaves behind: nothing has changed but the
basis. -/
def ReadFails (f : Fault) (d c : Bench (Patcher β)) : Prop :=
  ∃ offset remaining, d.state.stage = .copying offset remaining ∧ 0 < remaining ∧ 0 < d.output.room ∧
    Basis.Refuses d.state.basis offset (min remaining d.output.room) f ∧
    c = ⟨{ d.state with
      basis := (Basis.readAt d.state.basis offset (min remaining d.output.room)).2 },
      d.input, d.output⟩

theorem readFails_of_fail {f : Fault} (h : move b = .fail (.io f) c) : ReadFails f b c := by
  have heffect := effect_of_move b
  rw [h] at heffect
  cases heffect with
  | quiet _ _ hfail => exact (hfail _ _ rfl).elim
  | refused hstage hpos hroom hread => exact ⟨_, _, hstage, hpos, hroom, hread, rfl⟩

/-- A basis that refuses what is needed for a copy makes the move fail. -/
theorem fail_of_refuses {offset remaining : Nat} {f : Fault}
    (hs : b.state.stage = .copying offset remaining) (hpos : 0 < remaining) (hroom : 0 < b.output.room)
    (hr : Basis.Refuses b.state.basis offset (min remaining b.output.room) f) :
    ∃ c, move b = .fail (.io f) c := by
  obtain ⟨⟨β', size, verify, stage, field, hasher, written⟩, input, output⟩ := b
  obtain rfl : stage = .copying offset remaining := hs
  have hz : remaining ≠ 0 := Nat.pos_iff_ne_zero.mp hpos
  have hne : output.room ≠ 0 := Nat.pos_iff_ne_zero.mp hroom
  simp only [move, if_neg hz, if_neg hne]
  rcases hr with hr | ⟨rfl, bs, hr, hl⟩ <;> dsimp only at hr
  · rcases hread : Basis.readAt β' offset (min remaining output.room) with ⟨_ | _, β''⟩ <;>
      rw [hread] at hr <;> cases hr
    exact ⟨_, rfl⟩
  · rcases hread : Basis.readAt β' offset (min remaining output.room) with ⟨_ | _, β''⟩ <;>
      rw [hread] at hr <;> cases hr
    dsimp only at hl ⊢
    rw [if_neg hl]
    exact ⟨_, rfl⟩

/-- Moves lead from one bench to another. -/
def MovesTo : Bench (Patcher β) → Bench (Patcher β) → Prop :=
  Relation.ReflTransGen fun b c => move b = .next c

theorem movesTo_of_error {e : TransferError} (h : moves b = (.error e, c)) :
    ∃ d, MovesTo b d ∧ move d = .fail e c := by
  induction b using moves.induct with
  | case1 b b' hmove _ ih =>
    rw [moves_of_next hmove] at h
    obtain ⟨d, hd, hfail⟩ := ih h
    exact ⟨d, hd.head hmove, hfail⟩
  | case2 b reason b' hmove =>
    rw [moves_of_halt hmove] at h
    cases h
  | case3 b e' b' hmove =>
    rw [moves_of_fail hmove] at h
    cases h
    exact ⟨b, .refl, hmove⟩

/-- A step fails where a move does, or where the delta ends early. -/
theorem error_of_step {f : Failure} (h : Transducer.step b = (.error f, c)) :
    f = .error (.corruptedDelta .endedEarly) ∨
      ∃ d e, MovesTo b d ∧ move d = .fail e c ∧ f = .error e := by
  obtain ⟨hs, rfl⟩ := eq_of_step h
  rcases hm : moves b with ⟨e | reason, c⟩
  · rw [step_of_moves_error hm] at hs ⊢
    obtain ⟨d, hd, hfail⟩ := movesTo_of_error hm
    exact .inr ⟨d, e, hd, hfail, (Except.error.inj hs).symm⟩
  · rw [step_of_moves hm] at hs
    split_ifs at hs <;> cases hs
    exact .inl rfl

/-- **A step that fails for its basis has written nothing of the read that failed**, and what was to
be read next is still to be read. -/
theorem readFails_of_step {f : Fault} (h : Transducer.step b = (.error (.error (.io f)), c)) :
    ∃ d, MovesTo b d ∧ ReadFails f d c := by
  rcases error_of_step h with he | ⟨d, e, hd, hfail, he⟩
  · cases he
  · cases he
    exact ⟨d, hd, readFails_of_fail hfail⟩

/-- The bytes that are said to trail are those that have arrived. -/
theorem length_of_trailing {n : Nat}
    (h : Transducer.step b = (.error (.error (.corruptedDelta (.trailingBytes n))), c)) :
    n = c.input.length := by
  rcases error_of_step h with he | ⟨d, e, hd, hfail, he⟩
  · cases he
  · cases he
    have heffect := effect_of_move d
    rw [hfail] at heffect
    cases heffect with
    | quiet _ _ htells => exact htells _ _ rfl

/-! ## The states of a patcher -/

/-- What a patcher has put out until it came into a state. Any queues are before it in each step, and
steps follow also those that fail. -/
inductive Reach (start : Patcher β) : Bytes → Patcher β → Prop
  | start : Reach start [] start
  | step {committed made : Bytes} {p : Patcher β} {input output : Queue}
      {result : Except Failure Status} {c : Bench (Patcher β)} :
      Reach start committed p → Transducer.step ⟨p, input, output⟩ = (result, c) →
        c.output.content = output.content ++ made → Reach start (committed ++ made) c.state

variable {start p : Patcher β} {committed : Bytes}

/-- **A patcher has digested and counted all that it has put out, and nothing else.** -/
theorem accounts_of_reach (h : Reach start committed p) :
    p.hasher = start.hasher.update committed ∧ p.written = start.written + committed.length := by
  induction h with
  | start => exact ⟨rfl, rfl⟩
  | step _ hstep hmade ih =>
    obtain ⟨made, ho, hh, hw⟩ := accounts_of_step hstep
    obtain rfl : made = _ := List.append_cancel_left (ho.symm.trans hmade)
    rw [hh, hw, ih.1, ih.2, Blake3.Hasher.update_append, List.length_append, Nat.add_assoc]
    exact ⟨rfl, rfl⟩

theorem within_of_reach {Good : β → Prop}
    (hg : Basis.Withstands Good size)
    (hstart : Within Good size start) (h : Reach start committed p) : Within Good size p := by
  induction h with
  | start => exact hstart
  | step _ hstep _ ih => exact within_of_step hg ih hstep

/-- A transducer makes the steps of a patcher, and fails only where the patcher does. -/
structure Drives {τ : Type} [Transducer τ] (inner : τ → Patcher β) : Prop where
  step : ∀ t : Bench τ, (Transducer.step t).2.map inner = (Transducer.step (t.map inner)).2
  error : ∀ (t : Bench τ) c, (Transducer.step t).1 = .error c →
    (Transducer.step (t.map inner)).1 = .error c

theorem Drives.id : Drives (id : Patcher β → Patcher β) := ⟨fun _ => rfl, fun _ _ h => h⟩

/-- What is put out in a schedule was put out on the way to a state. -/
theorem reach_of_schedule {τ : Type} [Transducer τ] {inner : τ → Patcher β} (hd : Drives inner)
    {first : τ} {fed taken : Bytes} {result : Except Failure Status} {t : Bench τ}
    (h : Schedule first fed taken result t) :
    Reach (inner first) (taken ++ t.output.content) (inner t.state) := by
  induction h with
  | start _ ho =>
    rw [ho]
    exact .start
  | served _ hv ih =>
    rwa [hv.state, List.append_assoc, ← hv.output]
  | @stepped fed taken _ _ s t _ hstep ih =>
    have hinner := hd.step s
    rw [hstep] at hinner
    have hr : Transducer.step (s.map inner) = (_, t.map inner) := Prod.ext rfl hinner.symm
    obtain ⟨made, ho, -, -⟩ := accounts_of_step hr
    dsimp only [Bench.map] at ho
    rw [ho, ← List.append_assoc]
    exact ih.step hr ho

/-! ## Patchers of bases that are alike -/

omit [Basis β] [Basis γ] in
/-- The same patcher of another basis. -/
def rebase (f : β → γ) (p : Patcher β) : Patcher γ :=
  ⟨f p.basis, p.basisSize, p.verify, p.stage, p.field, p.hasher, p.written⟩

/-- The same bench with another basis and another input. -/
def reseat (f : β → γ) (g : Queue → Queue) (b : Bench (Patcher β)) : Bench (Patcher γ) :=
  ⟨b.state.rebase f, g b.input, b.output⟩

theorem move_reseat {f : β → γ} {g : Queue → Queue} (hf : Basis.Alike f) (hg : Queue.Alike g)
    (b : Bench (Patcher β)) : move (reseat f g b) = (move b).map (reseat f g) := by
  obtain ⟨⟨β', size, verify, stage, field, hasher, written⟩, input, output⟩ := b
  change move ⟨⟨f β', size, verify, stage, field, hasher, written⟩, g input, output⟩ = _
  cases stage with
  | mark =>
    simp only [move, hg.collect]
    rcases field.collect input deltaMark.length with ⟨_ | bs, f, q⟩
    · rfl
    · simp only [takeMark]
      by_cases hm : bs = deltaMark
      · simp only [if_pos hm]
        rfl
      · simp only [if_neg hm]
        rfl
  | opcode =>
    simp only [move, hg.front, hg.drop]
    rcases input.front 1 with _ | ⟨code, _⟩
    · rfl
    · dsimp only
      rcases stageOf code with e | stage <;> rfl
  | copyRange =>
    simp only [move, hg.collect]
    rcases field.collect input 12 with ⟨_ | bs, f, q⟩
    · rfl
    · dsimp only
      rcases stageOfRange size bs with e | stage <;> rfl
  | copying offset remaining =>
    simp only [move, hf β' offset]
    by_cases hz : remaining = 0
    · simp only [if_pos hz]
      rfl
    by_cases hr : output.room = 0
    · simp only [if_neg hz, if_pos hr]
      rfl
    simp only [if_neg hz, if_neg hr]
    rcases Basis.readAt β' offset (min remaining output.room) with ⟨e | bs, β''⟩
    · rfl
    · dsimp only
      by_cases hl : bs.length = min remaining output.room
      · rw [if_pos hl, if_pos hl]
        rfl
      · rw [if_neg hl, if_neg hl]
        rfl
  | insertLength =>
    simp only [move, hg.collect]
    rcases field.collect input 4 with ⟨_ | bs, f, q⟩ <;> rfl
  | inserting remaining =>
    simp only [move, hg.isEmpty, hg.length, hg.front, hg.drop]
    by_cases hr : output.room = 0
    · simp only [if_pos hr]
      rfl
    by_cases he : input.isEmpty = true
    · simp only [if_neg hr, if_pos he]
      rfl
    · simp only [if_neg hr, if_neg he]
      rfl
  | checksum =>
    simp only [move, hg.collect, checkDigest]
    rcases field.collect input digestLength with ⟨_ | bs, f, q⟩
    · rfl
    · by_cases hd : (verify && Digest.ofInitial bs != hasher.digest) = true
      · simp only [if_pos hd]
        rfl
      · simp only [if_neg hd]
        rfl
  | done =>
    simp only [move, hg.isEmpty, hg.length]
    by_cases he : input.isEmpty = true
    · simp only [if_pos he]
      rfl
    · simp only [if_neg he]
      rfl

theorem moves_reseat {f : β → γ} {g : Queue → Queue} (hf : Basis.Alike f) (hg : Queue.Alike g)
    (b : Bench (Patcher β)) : moves (reseat f g b) = ((moves b).1, reseat f g (moves b).2) := by
  have hone := fun b => move_reseat hf hg b
  induction b using moves.induct with
  | case1 b c hmove _ ih =>
    have hm := hone b
    rw [hmove] at hm
    rw [moves_of_next hm, moves_of_next hmove, ih]
  | case2 b reason c hmove =>
    have hm := hone b
    rw [hmove] at hm
    rw [moves_of_halt hm, moves_of_halt hmove]
  | case3 b e c hmove =>
    have hm := hone b
    rw [hmove] at hm
    rw [moves_of_fail hm, moves_of_fail hmove]

theorem moves_rebase {f : β → γ} (hf : Basis.Alike f) (b : Bench (Patcher β)) :
    moves (b.map (rebase f)) = ((moves b).1, (moves b).2.map (rebase f)) := moves_reseat hf .id b

/-- **A patcher cannot tell bases apart that give the same when they are read.** -/
theorem step_rebase {f : β → γ} (hf : Basis.Alike f) (b : Bench (Patcher β)) :
    Transducer.step (b.map (rebase f)) =
      ((Transducer.step b).1, (Transducer.step b).2.map (rebase f)) := by
  have hmoves := moves_rebase hf b
  change ((step (b.map (rebase f))).1.mapError Failure.error, (step (b.map (rebase f))).2) =
    ((step b).1.mapError Failure.error, (step b).2.map (rebase f))
  rcases hm : moves b with ⟨e | reason, c⟩ <;> rw [hm] at hmoves
  · rw [step_of_moves_error hm, step_of_moves_error hmoves]
  · rw [step_of_moves hm, step_of_moves hmoves]
    by_cases hd : c.state.stage = .done
    · rw [if_pos hd, if_pos (by exact hd)]
      rfl
    · rw [if_neg hd, if_neg (by exact hd)]
      by_cases hend : reason = .starved ∧ c.input.atEnd = true
      · rw [if_pos hend, if_pos (by exact hend)]
      · rw [if_neg hend, if_neg (by exact hend)]

theorem reach_rebase {f : β → γ} (hf : Basis.Alike f) (h : Reach start committed p) :
    Reach (start.rebase f) committed (p.rebase f) := by
  induction h with
  | start => exact .start
  | @step _ _ p input output _ c _ hstep hmade ih =>
    have hr := step_rebase hf ⟨p, input, output⟩
    rw [hstep] at hr
    exact ih.step hr hmade

theorem exists_of_reach_rebase {f : β → γ} (hf : Basis.Alike f) {q : Patcher γ}
    (h : Reach (start.rebase f) committed q) : ∃ p, Reach start committed p ∧ p.rebase f = q := by
  induction h with
  | start => exact ⟨start, .start, rfl⟩
  | @step _ _ _ input output _ c _ hstep hmade ih =>
    obtain ⟨p, hp, rfl⟩ := ih
    have hr := step_rebase hf ⟨p, input, output⟩
    have hc : c = (Transducer.step ⟨p, input, output⟩).2.map (rebase f) :=
      (congrArg Prod.snd hstep).symm.trans (congrArg Prod.snd hr)
    rw [hc] at hmade ⊢
    exact ⟨_, hp.step rfl hmade, rfl⟩

/-! ## What a basis is asked for -/

omit [Basis β] in
/-- A patcher that keeps account of what it reads. -/
def recorded (p : Patcher β) : Patcher (Recorder β) := p.rebase fun basis => ⟨basis, []⟩

/-- Keeping account of what is read changes nothing else. -/
theorem reach_iff_recorded : Reach start committed p ↔
    ∃ q, Reach start.recorded committed q ∧ q.rebase Recorder.basis = p := by
  constructor
  · intro h
    have h' : Reach (start.recorded.rebase Recorder.basis) committed p := h
    exact exists_of_reach_rebase Recorder.alike h'
  · rintro ⟨q, hq, rfl⟩
    exact reach_rebase Recorder.alike hq

/-- **All that a patcher reads lies within the size of its basis.** -/
theorem requests_within {q : Patcher (Recorder β)} (hs : start.stage = .mark)
    (h : Reach start.recorded committed q) :
    ∀ r ∈ q.basis.requests, r.offset + r.count ≤ start.basisSize := by
  have hstart : Within (fun basis : Recorder β =>
      ∀ r ∈ basis.requests, r.offset + r.count ≤ start.basisSize) start.basisSize start.recorded := by
    refine ⟨fun r hr => ?_, rfl, fun offset remaining hc => ?_⟩
    · cases hr
    · rw [show start.recorded.stage = start.stage from rfl, hs] at hc
      cases hc
  refine (within_of_reach (fun basis offset count hgood hle r hr => ?_) hstart h).basis
  rcases List.mem_append.mp hr with hr | hr
  · exact hgood r hr
  · rw [List.mem_singleton.mp hr]
    exact hle

end Patcher

end BlockSync
