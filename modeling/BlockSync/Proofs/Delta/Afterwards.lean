import BlockSync.Proofs.Delta.Accounts
import BlockSync.Proofs.Delta.Reading
import BlockSync.Proofs.Signature.Afterwards

/-!
# Patchers that have failed

A patcher has no state of failure. A wrong mark stays in its field and bytes behind the end stay in
the input, so that both are refused again; any other record that is refused has already left, and
what follows is read as if it had not been there.

* `Patcher.Fails`, **`Patcher.fails_of_move`**: what a move that fails leaves behind;
* `Patcher.Sane`: what a patcher can have come to, also after failures;
* `Patcher.moves_reopen`: moves do not look at the end of the stream;
* `Patcher.CutOff`: failures for the end of the stream alone;
* `Patcher.closing`: what makes a patcher done that has lost a record;
* **`Patcher.after_error`**: what follows a failure, by its cause;
* **`Bench.aftermath_of_error`**: the same of all transducers.
-/

namespace BlockSync

/-! ## Fields -/

theorem Field.collect_some {f f' : Field} {q q' : Queue} {n : Nat} {bs : Bytes}
    (h : f.collect q n = (some bs, f', q')) :
    bs.length = n ∧ f' = ⟨bs⟩ ∧ f.bytes ++ q.content = bs ++ q'.content := by
  simp only [collect, Prod.mk.injEq, Option.ite_none_right_eq_some, Option.some.injEq] at h
  obtain ⟨⟨hl, rfl⟩, rfl, rfl⟩ := h
  refine ⟨hl, rfl, ?_⟩
  rw [Queue.content_drop, Queue.front_eq, List.append_assoc, List.take_append_drop]

/-- A field that has stayed incomplete does so again when nothing has arrived. -/
theorem Field.collect_again {f f' : Field} {q q' r : Queue} {n : Nat}
    (h : f.collect q n = (none, f', q')) (hr : r.content = []) : f'.collect r n = (none, f', r) := by
  have hlen : r.length = 0 := by rw [← Queue.length_content, hr]; rfl
  simp only [collect, Prod.mk.injEq, ite_eq_right_iff] at h
  obtain ⟨hl, rfl, -⟩ := h
  have hne : (f.bytes ++ q.front (min (n - f.bytes.length) q.length)).length ≠ n := by
    intro hc
    cases hl hc
  simp only [collect, hlen, Nat.min_zero, r.drop_zero, Queue.front_eq, hr, List.take_nil,
    List.append_nil]
  rw [← Queue.front_eq, if_neg hne]

/-- To a complete field nothing is added. -/
theorem Field.collect_full {f : Field} {q : Queue} {n : Nat} (h : f.bytes.length = n) :
    f.collect q n = (some f.bytes, f, q) := by
  rw [collect_eq (Nat.le_of_eq h), List.take_left' h, if_pos (by rw [List.length_append]; omega), h,
    Nat.sub_self, q.drop_zero]

/-- A field at the front of the input. -/
theorem Field.collect_front {q : Queue} {bs rest : Bytes}
    (hpos : Field.empty.bytes.length < bs.length) (h : q.content = bs ++ rest) :
    ∃ q', Field.empty.collect q bs.length = (some bs, ⟨bs⟩, q') ∧ q'.content = rest ∧
      q'.ended = q.ended := by
  obtain ⟨q', hended, -, ⟨found, hc, hl, hcontent⟩ | ⟨-, -, hl⟩⟩ := Field.collect_spec hpos q
  · obtain ⟨rfl, rfl⟩ := List.append_inj (h.symm.trans hcontent) hl.symm
    exact ⟨q', hc, rfl, hended⟩
  · rw [h] at hl
    simp only [Field.empty, List.nil_append, List.length_append] at hl
    omega

namespace Patcher

variable {β : Type} [Basis β] {b c d : Bench (Patcher β)} {e : TransferError} {p : Patcher β}

/-! ## What a move that fails leaves behind -/

/-- What a move that fails leaves behind. -/
inductive Fails (b : Bench (Patcher β)) : TransferError → Bench (Patcher β) → Prop
  /-- A wrong mark stays in its field. -/
  | mark {found : Bytes} {input : Queue} (hs : b.state.stage = .mark)
      (hl : found.length = deltaMark.length) (hne : found ≠ deltaMark)
      (hcontent : b.state.field.bytes ++ b.input.content = found ++ input.content) :
      Fails b (.corruptedDelta (.wrongMark found))
        ⟨{ b.state with field := ⟨found⟩ }, input, b.output⟩
  /-- An unknown opcode has left. -/
  | opcode {code : UInt8} {rest : Bytes} (hs : b.state.stage = .opcode)
      (hcode : code ∉ [copyOpcode, insertOpcode, closeOpcode])
      (hcontent : b.input.content = code :: rest) :
      Fails b (.corruptedDelta (.unknownOpcode code)) ⟨b.state, b.input.drop 1, b.output⟩
  /-- A range that reaches past the end of the basis has left. -/
  | range {bs : Bytes} {input : Queue} (hs : b.state.stage = .copyRange) (hl : bs.length = 12)
      (hsize : b.state.basisSize < BigEndian.decode (bs.take 8) + BigEndian.decode (bs.drop 8))
      (hcontent : b.state.field.bytes ++ b.input.content = bs ++ input.content) :
      Fails b (.copyOutOfBounds (BigEndian.decode (bs.take 8)) (BigEndian.decode (bs.drop 8))
        b.state.basisSize) ⟨{ b.state with field := .empty }, input, b.output⟩
  /-- A digest that does not agree has left. -/
  | digest {bs : Bytes} {input : Queue} (hs : b.state.stage = .checksum)
      (hl : bs.length = digestLength) (hv : b.state.verify = true)
      (hne : Digest.ofInitial bs ≠ b.state.hasher.digest)
      (hcontent : b.state.field.bytes ++ b.input.content = bs ++ input.content) :
      Fails b (.checksumMismatch (Digest.ofInitial bs).bytes b.state.hasher.digest.bytes)
        ⟨{ b.state with field := .empty }, input, b.output⟩
  /-- Bytes behind the end stay in the input. -/
  | trailing (hs : b.state.stage = .done) (hne : b.input.content ≠ []) :
      Fails b (.corruptedDelta (.trailingBytes b.input.length)) b
  /-- A read has been refused. -/
  | read {f : Fault} {c : Bench (Patcher β)} (h : ReadFails f b c) : Fails b (.io f) c

/-- **All that a move that fails leaves behind.** -/
theorem fails_of_move (h : move b = .fail e c) : Fails b e c := by
  obtain ⟨⟨β', size, verify, stage, field, hasher, written⟩, input, output⟩ := b
  have hmove := h
  cases stage with
  | mark =>
    simp only [move] at h
    rcases hf : field.collect input deltaMark.length with ⟨_ | bs, f, q⟩ <;> rw [hf] at h
    · cases h
    · obtain ⟨hl, rfl, hcontent⟩ := Field.collect_some hf
      simp only [takeMark] at h
      split_ifs at h with hm
      cases h
      exact .mark rfl hl hm hcontent
  | opcode =>
    simp only [move] at h
    rcases hf : input.front 1 with _ | ⟨code, rest⟩ <;> rw [hf] at h
    · cases h
    · simp only [stageOf] at h
      split_ifs at h with h₁ h₂ h₃
      cases h
      have hcontent : input.content = code :: input.content.tail := by
        rw [input.front_eq] at hf
        cases hc : input.content <;> rw [hc] at hf <;> cases hf
        rfl
      exact .opcode rfl (by simp [h₁, h₂, h₃]) hcontent
  | copyRange =>
    simp only [move] at h
    rcases hf : field.collect input 12 with ⟨_ | bs, f, q⟩ <;> rw [hf] at h
    · cases h
    · obtain ⟨hl, rfl, hcontent⟩ := Field.collect_some hf
      simp only [stageOfRange] at h
      split_ifs at h with hw
      cases h
      exact .range rfl hl (Nat.lt_of_not_le hw) hcontent
  | copying offset remaining =>
    simp only [move] at h
    split_ifs at h
    rcases hread : Basis.readAt β' offset (min remaining output.room) with ⟨f | bs, β''⟩ <;>
      rw [hread] at h <;> dsimp only at h
    · cases h
      exact .read (readFails_of_fail hmove)
    · split_ifs at h
      cases h
      exact .read (readFails_of_fail hmove)
  | insertLength =>
    simp only [move] at h
    rcases hf : field.collect input 4 with ⟨_ | bs, f, q⟩ <;> rw [hf] at h <;> cases h
  | inserting remaining =>
    simp only [move] at h
    split_ifs at h
  | checksum =>
    simp only [move] at h
    rcases hf : field.collect input digestLength with ⟨_ | bs, f, q⟩ <;> rw [hf] at h
    · cases h
    · obtain ⟨hl, rfl, hcontent⟩ := Field.collect_some hf
      simp only [checkDigest] at h
      split_ifs at h with hd
      cases h
      rw [Bool.and_eq_true, bne_iff_ne] at hd
      exact .digest rfl hl hd.1 hd.2 hcontent
  | done =>
    simp only [move] at h
    split_ifs at h with he
    cases h
    exact .trailing rfl fun hc => he (input.isEmpty_iff.mpr hc)

/-! ## What a patcher can have come to -/

omit [Basis β] in
/-- The mark is complete and wrong. -/
structure WrongMark (p : Patcher β) : Prop where
  stage : p.stage = .mark
  length : p.field.bytes.length = deltaMark.length
  ne : p.field.bytes ≠ deltaMark

omit [Basis β] in
/-- A patcher is in the midst of a delta, or stopped at its mark. -/
def Sane (p : Patcher β) : Prop := Fits p ∨ WrongMark p

/-- At a wrong mark every move fails and changes nothing of the patcher. -/
theorem move_of_wrongMark (h : WrongMark b.state) : move b = .fail
    (.corruptedDelta (.wrongMark b.state.field.bytes)) b := by
  obtain ⟨⟨β', size, verify, stage, field, hasher, written⟩, input, output⟩ := b
  obtain ⟨rfl, hl, hne⟩ := h
  simp only [move, Field.collect_full hl, takeMark, if_neg hne]

theorem sane_move (h : Sane b.state) : Sane (move b).left.state := by
  rcases h with h | h
  · have hgoes := move_goes h
    rcases hm : move b with c | ⟨reason, c⟩ | ⟨e, c⟩ <;> rw [hm] at hgoes
    · exact .inl hgoes.1
    · exact .inl hgoes.1
    · change Sane c.state
      cases fails_of_move hm with
      | mark hs hl hne => exact .inr ⟨hs, hl, hne⟩
      | opcode => exact .inl h
      | range hs =>
        left
        simp only [Fits, hs, StageFits]
        decide
      | digest hs =>
        left
        simp only [Fits, hs, StageFits]
        decide
      | trailing => exact .inl h
      | read hread =>
        obtain ⟨_, _, -, -, -, -, rfl⟩ := hread
        exact .inl h
  · rw [move_of_wrongMark h]
    exact .inr h

theorem stays_sane (Fed : Bytes → Prop) :
    Bench.Stays Fed fun b : Bench (Patcher β) => Sane b.state where
  tended h ht _ := by rwa [ht.state]
  step {c} h := by
    change Sane (step c).2.state
    rw [snd_step]
    exact moves_keeps (P := fun d => Sane d.state) (fun d hd => sane_move hd) h

theorem sane_of_movesTo (h : Sane b.state) (hm : MovesTo b d) : Sane d.state := by
  induction hm with
  | refl => exact h
  | tail _ hmove ih =>
    have hs := sane_move ih
    rwa [hmove] at hs

theorem sane_of_start {basis : β} {verify : Bool} (h : start basis verify = .ok p) : Sane p :=
  .inl (fits_of_start h)

/-! ## Failures that are final -/

theorem transducer_step_of_fail {c : Bench (Patcher β)} (h : move b = .fail e c) :
    Transducer.step b = (.error (.error e), c) := by
  change ((step b).1.mapError Failure.error, (step b).2) = _
  rw [step_of_moves_error (moves_of_fail h)]
  rfl

/-- A wrong mark is refused for ever. -/
theorem final_of_wrongMark (h : WrongMark b.state) : b.Final fun _ => True := by
  refine Bench.final_of_stays (P := fun b => WrongMark b.state)
    ⟨fun hc ht _ => by rwa [ht.state], fun {c} hc => ?_⟩ (fun {c} hc => ?_) h
  · rwa [transducer_step_of_fail (move_of_wrongMark hc)]
  · rw [transducer_step_of_fail (move_of_wrongMark hc)]
    nofun

omit [Basis β] in
/-- Bytes follow the end of the delta. -/
structure Trailing (b : Bench (Patcher β)) : Prop where
  stage : b.state.stage = .done
  ne : b.input.content ≠ []

theorem move_of_trailing (h : Trailing b) : move b = .fail
    (.corruptedDelta (.trailingBytes b.input.length)) b := by
  obtain ⟨⟨β', size, verify, stage, field, hasher, written⟩, input, output⟩ := b
  obtain ⟨rfl, hne⟩ := h
  have he : ¬ input.isEmpty = true := fun hc => hne (input.isEmpty_iff.mp hc)
  simp only [move, if_neg he]

/-- Bytes behind the end of a delta are refused for ever. -/
theorem final_of_trailing (h : Trailing b) : b.Final fun _ => True := by
  refine Bench.final_of_stays (P := Trailing) ⟨fun hc ht _ => ⟨?_, ?_⟩, fun {c} hc => ?_⟩
    (fun {c} hc => ?_) h
  · rw [ht.state, hc.stage]
  · rw [ht.input]
    exact List.append_ne_nil_of_left_ne_nil hc.ne _
  · rwa [transducer_step_of_fail (move_of_trailing hc)]
  · rw [transducer_step_of_fail (move_of_trailing hc)]
    nofun

/-! ## A delta that ends too early -/

/-- Moves do not look at the end of the stream. -/
theorem moves_reopen (b : Bench (Patcher β)) :
    moves b.reopen = ((moves b).1, (moves b).2.reopen) :=
  moves_reseat Basis.Alike.id Queue.alike_reopen b

/-- Moves that stop do so at a move. -/
theorem exists_of_moves {reason : Halt} (h : moves b = (.ok reason, c)) :
    ∃ d, move d = .halt reason c := by
  induction b using moves.induct with
  | case1 b b' hmove _ ih =>
    rw [moves_of_next hmove] at h
    exact ih h
  | case2 b reason' b' hmove =>
    rw [moves_of_halt hmove] at h
    cases h
    exact ⟨b, hmove⟩
  | case3 b e b' hmove =>
    rw [moves_of_fail hmove] at h
    cases h

/-- Without input a patcher that has stopped for want of it stops again, and where it is. -/
theorem move_again (h : move d = .halt .starved c) (hc : c.state.stage ≠ .done)
    (hb : b.state = c.state) (hnil : b.input.content = []) : ∃ reason, move b = .halt reason b := by
  obtain ⟨⟨β', size, verify, stage, field, hasher, written⟩, input, output⟩ := d
  obtain ⟨p, input', output'⟩ := b
  obtain rfl : p = c.state := hb
  have hfront : input'.front 1 = [] := by
    rw [input'.front_eq, hnil]
    rfl
  have hempty : input'.isEmpty = true := input'.isEmpty_iff.mpr hnil
  cases stage with
  | mark =>
    simp only [move] at h
    rcases hf : field.collect input deltaMark.length with ⟨_ | bs, f, q⟩ <;> rw [hf] at h
    · cases h
      exact ⟨.starved, by simp only [move, Field.collect_again hf hnil]⟩
    · simp only [takeMark] at h
      split_ifs at h
  | opcode =>
    simp only [move] at h
    rcases hf : input.front 1 with _ | ⟨code, rest⟩ <;> rw [hf] at h
    · cases h
      exact ⟨.starved, by simp only [move, hfront]⟩
    · cases hcode : stageOf code <;> simp only [hcode] at h <;> cases h
  | copyRange =>
    simp only [move] at h
    rcases hf : field.collect input 12 with ⟨_ | bs, f, q⟩ <;> rw [hf] at h
    · cases h
      exact ⟨.starved, by simp only [move, Field.collect_again hf hnil]⟩
    · cases hrange : stageOfRange size bs <;> simp only [hrange] at h <;> cases h
  | copying offset remaining =>
    simp only [move] at h
    split_ifs at h
    · cases h
    · rcases hread : Basis.readAt β' offset (min remaining output.room) with ⟨f | bs, β''⟩ <;>
        rw [hread] at h <;> dsimp only at h
      · cases h
      · split_ifs at h
  | insertLength =>
    simp only [move] at h
    rcases hf : field.collect input 4 with ⟨_ | bs, f, q⟩ <;> rw [hf] at h <;> cases h
    exact ⟨.starved, by simp only [move, Field.collect_again hf hnil]⟩
  | inserting remaining =>
    simp only [move] at h
    split_ifs at h
    · cases h
    · cases h
      by_cases hr : output'.room = 0
      · exact ⟨.full, by simp only [move, if_pos hr]⟩
      · exact ⟨.starved, by simp only [move, if_neg hr, if_pos hempty]⟩
  | checksum =>
    simp only [move] at h
    rcases hf : field.collect input digestLength with ⟨_ | bs, f, q⟩ <;> rw [hf] at h
    · cases h
      exact ⟨.starved, by simp only [move, Field.collect_again hf hnil]⟩
    · simp only [checkDigest] at h
      split_ifs at h
  | done =>
    simp only [move] at h
    split_ifs at h
    cases h
    exact absurd rfl hc

/-- A patcher that has failed for the end of its stream alone. It is where it would be if the end had
not been marked, and stays there until it is fed. -/
structure CutOff (b c : Bench (Patcher β)) : Prop where
  resumes : Transducer.step b.reopen = (.ok .blocked, c.reopen)
  stays : ∀ d, c.Later (· = []) d → d.state = c.state
  final : c.Final (· = [])

theorem cutOff_of_starved (hm : moves b = (.ok .starved, c)) (hstage : c.state.stage ≠ .done)
    (hend : c.input.atEnd = true) : CutOff b c := by
  obtain ⟨d, hd⟩ := exists_of_moves hm
  have hagain : ∀ {b : Bench (Patcher β)}, b.state = c.state ∧ b.input.content = [] →
      ∃ result, Transducer.step b = (result, b) ∧ result ≠ .ok .done := by
    rintro b ⟨hb, hnil⟩
    obtain ⟨reason, hmove⟩ := move_again hd hstage hb hnil
    have hne : b.state.stage ≠ .done := by rwa [hb]
    refine ⟨_, Prod.ext rfl ?_, ?_⟩
    · change (step b).2 = b
      rw [snd_step, moves_of_halt hmove]
    · rw [step_of_moves (moves_of_halt hmove), if_neg hne]
      split <;> nofun
  have hstays : Bench.Stays (· = [])
      fun b : Bench (Patcher β) => b.state = c.state ∧ b.input.content = [] := by
    refine ⟨fun {b d fed} hb ht hfed => ?_, fun {b} hb => ?_⟩
    · subst hfed
      exact ⟨ht.state.trans hb.1, by rw [ht.input, hb.2]; rfl⟩
    · obtain ⟨result, hstep, -⟩ := hagain hb
      rwa [hstep]
  have hnow : c.state = c.state ∧ c.input.content = [] := ⟨rfl, (c.input.atEnd_iff.mp hend).2⟩
  refine ⟨?_, fun d hd => (hd.keeps hstays hnow).1,
    Bench.final_of_stays hstays (fun {b} hb => ?_) hnow⟩
  · have hopen : moves b.reopen = (.ok .starved, c.reopen) := by rw [moves_reopen, hm]
    have hne : c.reopen.state.stage ≠ .done := hstage
    have hnot : ¬ (Halt.starved = .starved ∧ c.reopen.input.atEnd = true) := nofun
    change ((step b.reopen).1.mapError Failure.error, (step b.reopen).2) = _
    rw [step_of_moves hopen, if_neg hne, if_neg hnot]
    rfl
  · obtain ⟨result, hstep, hresult⟩ := hagain hb
    rwa [hstep]

/-! ## Records that are lost -/

omit [Basis β] in
/-- What makes a patcher done that is in the midst of a delta: its digest, and before it what is still
missing of a closing record, or of a copy of nothing. -/
def closing (p : Patcher β) : Bytes :=
  match p.stage with
  | .copyRange => List.replicate 12 0 ++ (Instruction.close p.hasher.digest).encode
  | .checksum => p.hasher.digest.bytes
  | _ => (Instruction.close p.hasher.digest).encode

theorem transducer_step_of_next (h : move b = .next c) : Transducer.step b = Transducer.step c := by
  change ((step b).1.mapError Failure.error, (step b).2) =
    ((step c).1.mapError Failure.error, (step c).2)
  rw [step, step, moves_of_next h]

variable {β' : β} {size written : Nat} {verify : Bool} {hasher : Blake3.Hasher} {input output : Queue}

theorem done_of_digest (hcontent : input.content = hasher.digest.bytes) (he : input.ended = true) :
    (Transducer.step (⟨⟨β', size, verify, .checksum, .empty, hasher, written⟩, input, output⟩ :
      Bench (Patcher β))).1 = .ok .done := by
  have hl := hasher.digest.length_bytes
  obtain ⟨q, hc, hnil, hended⟩ := Field.collect_front (by rw [hl]; decide)
    (hcontent.trans (List.append_nil _).symm)
  rw [hl] at hc
  have hmove : move (⟨⟨β', size, verify, .checksum, .empty, hasher, written⟩, input, output⟩ :
      Bench (Patcher β)) =
        .next ⟨⟨β', size, verify, .done, .empty, hasher, written⟩, q, output⟩ := by
    simp [move, hc, checkDigest, Digest.ofInitial_bytes]
  have hlast : move (⟨⟨β', size, verify, .done, .empty, hasher, written⟩, q, output⟩ :
      Bench (Patcher β)) =
        .halt .starved ⟨⟨β', size, verify, .done, .empty, hasher, written⟩, q, output⟩ := by
    simp only [move, if_pos (q.isEmpty_iff.mpr hnil)]
  rw [transducer_step_of_next hmove]
  change (step _).1.mapError Failure.error = _
  rw [step_of_moves (moves_of_halt hlast), if_pos rfl, hended, if_pos he]
  rfl

theorem done_of_close (hcontent : input.content = (Instruction.close hasher.digest).encode)
    (he : input.ended = true) :
    (Transducer.step (⟨⟨β', size, verify, .opcode, .empty, hasher, written⟩, input, output⟩ :
      Bench (Patcher β))).1 = .ok .done := by
  have hfront : input.front 1 = [closeOpcode] := by
    rw [input.front_eq, hcontent]
    rfl
  have hmove : move (⟨⟨β', size, verify, .opcode, .empty, hasher, written⟩, input, output⟩ :
      Bench (Patcher β)) =
        .next ⟨⟨β', size, verify, .checksum, .empty, hasher, written⟩, input.drop 1, output⟩ := by
    simp only [move, hfront]
    rfl
  rw [transducer_step_of_next hmove]
  refine done_of_digest ?_ (by simpa using he)
  rw [Queue.content_drop, hcontent]
  rfl

theorem done_of_range (hcontent : input.content =
      List.replicate 12 0 ++ (Instruction.close hasher.digest).encode) (he : input.ended = true) :
    (Transducer.step (⟨⟨β', size, verify, .copyRange, .empty, hasher, written⟩, input, output⟩ :
      Bench (Patcher β))).1 = .ok .done := by
  obtain ⟨q, hc, hrest, hended⟩ := Field.collect_front (by decide) hcontent
  have hzero : stageOfRange size (List.replicate 12 0) = .ok (.copying 0 0) := by
    rw [stageOfRange, if_pos (by exact Nat.zero_le _)]
    rfl
  have hmove : move (⟨⟨β', size, verify, .copyRange, .empty, hasher, written⟩, input, output⟩ :
      Bench (Patcher β)) =
        .next ⟨⟨β', size, verify, .copying 0 0, .empty, hasher, written⟩, q, output⟩ := by
    rw [List.length_replicate] at hc
    simp only [move, hc, hzero]
  have hnext : move (⟨⟨β', size, verify, .copying 0 0, .empty, hasher, written⟩, q, output⟩ :
      Bench (Patcher β)) =
        .next ⟨⟨β', size, verify, .opcode, .empty, hasher, written⟩, q, output⟩ := by
    simp [move]
  rw [transducer_step_of_next hmove, transducer_step_of_next hnext]
  exact done_of_close hrest (hended.trans he)

/-! ## After a failure -/

/-- What follows a failure by its cause, as far as it is not said by what it leaves behind. What a
patcher refuses at its ends it refuses for ever; when it has lost a record and nothing has arrived
behind it, it can still be made done. -/
def Aftermath (c : Bench (Patcher β)) : TransferError → Prop
  | .corruptedDelta (.wrongMark _) | .corruptedDelta (.trailingBytes _) => c.Final fun _ => True
  | .corruptedDelta (.unknownOpcode _) | .copyOutOfBounds _ _ _ | .checksumMismatch _ _ =>
    c.input.content = [] → ∀ d, c.Tended d (closing c.state) → d.input.ended = true →
      (Transducer.step d).1 = .ok .done
  | _ => True

theorem aftermath_of_fails (hb : Sane b.state) (h : Fails b e c) : Aftermath c e := by
  obtain ⟨⟨β', size, verify, stage, field, hasher, written⟩, input, output⟩ := b
  cases h with
  | mark hs hl hne => exact final_of_wrongMark ⟨hs, hl, hne⟩
  | opcode hs hcode hcontent =>
    obtain rfl : stage = .opcode := hs
    obtain rfl : field = .empty := by
      rcases hb with hfit | hwrong
      · exact hfit
      · exact nomatch hwrong.stage
    rintro hnil ⟨p, input', output'⟩ ⟨hstate, hinput, -⟩ hended
    cases hstate
    exact done_of_close (by rw [hinput, hnil]; rfl) hended
  | range hs =>
    obtain rfl : stage = .copyRange := hs
    rintro hnil ⟨p, input', output'⟩ ⟨hstate, hinput, -⟩ hended
    cases hstate
    exact done_of_range (by rw [hinput, hnil]; rfl) hended
  | digest hs =>
    obtain rfl : stage = .checksum := hs
    rintro hnil ⟨p, input', output'⟩ ⟨hstate, hinput, -⟩ hended
    cases hstate
    exact done_of_digest (by rw [hinput, hnil]; rfl) hended
  | trailing hs hne => exact final_of_trailing ⟨hs, hne⟩
  | read => trivial

/-- **What follows a failure of a patcher**, in whatever order it was fed and stepped before, and also
if it has failed before. -/
theorem after_error {basis : β} {verify : Bool} (hp : start basis verify = .ok p)
    {first : Bench (Patcher β)} {f : Failure} (hfirst : first.state = p)
    (hb : first.Later (fun _ => True) b) (h : Transducer.step b = (.error f, c)) :
    (f = .error (.corruptedDelta .endedEarly) ∧ CutOff b c) ∨
      ∃ d e, f = .error e ∧ MovesTo b d ∧ Fails d e c ∧ Aftermath c e := by
  have hsane : Sane b.state := hb.keeps (stays_sane _) (by rw [hfirst]; exact sane_of_start hp)
  obtain ⟨hs, rfl⟩ := eq_of_step h
  rcases hm : moves b with ⟨e | reason, c⟩
  · rw [step_of_moves_error hm] at hs ⊢
    obtain ⟨d, hd, hfail⟩ := movesTo_of_error hm
    have hfails := fails_of_move hfail
    exact .inr ⟨d, e, (Except.error.inj hs).symm, hd, hfails,
      aftermath_of_fails (sane_of_movesTo hsane hd) hfails⟩
  · rw [step_of_moves hm] at hs ⊢
    by_cases hstage : c.state.stage = .done
    · rw [if_pos hstage] at hs
      cases hs
    · by_cases hend : reason = .starved ∧ c.input.atEnd = true
      · rw [if_neg hstage, if_pos hend] at hs ⊢
        cases hs
        obtain ⟨rfl, hend⟩ := hend
        exact .inl ⟨rfl, cutOff_of_starved hm hstage hend⟩
      · rw [if_neg hstage, if_neg hend] at hs
        cases hs

end Patcher

/-! ## All transducers -/

namespace DeltaEncoder

/-- The window of an encoder may be lost, but its file is never refused. -/
theorem takeBytes_ne (d : DeltaEncoder) (bs : Bytes) (e : TransferError) :
    (d.takeBytes bs).1 ≠ .error (.error e) := by
  unfold takeBytes overrun
  split_ifs <;> simp

theorem takeInput_ne (d : DeltaEncoder) (input : Queue) (e : TransferError) :
    (d.takeInput input).1 ≠ .error (.error e) := by
  have htake := d.takeBytes_ne input.content e
  unfold takeInput
  split
  · nofun
  · rcases hr : d.takeBytes input.content with ⟨f | u, d'⟩ <;> rw [hr] at htake
    · exact htake
    · dsimp only
      split
      · unfold endFile
        split <;> nofun
      · nofun

theorem step_ne (b : Bench DeltaEncoder) (e : TransferError) :
    (Transducer.step b).1 ≠ .error (.error e) := by
  obtain ⟨d, input, output⟩ := b
  change (step _).1 ≠ _
  have htake := DeltaEncoder.takeInput_ne { d with backlog := (d.backlog.pour output).1 } input e
  simp only [step]
  split
  · simp
  · rcases hr : DeltaEncoder.takeInput { d with backlog := (d.backlog.pour output).1 } input with
      ⟨f | u, d', input'⟩ <;> rw [hr] at htake
    · intro h
      cases h
      exact htake rfl
    · simp

end DeltaEncoder

/-- **What follows a failure.** An emitter never fails, and an encoder refuses no file. A loader that
has failed is lost, or lacks only the rest of its stream. A patcher that has failed for more than the
end of its stream is lost if it has refused the mark or what follows the end; any other record that
it has refused is gone and forgotten, and a read that was refused is tried again. -/
theorem Bench.aftermath_of_error {β : Type} [Basis β] (basis : β) (verify : Bool) :
    (∀ b : Bench SignatureEmitter, ∃ status, (Transducer.step b).1 = .ok status) ∧
      (∀ (b : Bench DeltaEncoder) (e : TransferError), (Transducer.step b).1 ≠ .error (.error e)) ∧
      (∀ (first b c : Bench SignatureLoader) (f : Failure), first.state = .start →
        first.Later (fun _ => True) b → Transducer.step b = (.error f, c) →
          SignatureLoader.Lost c ∨ SignatureLoader.CutOff f b c) ∧
      ∀ (first b c : Bench (Patcher β)) (f : Failure), Patcher.start basis verify = .ok first.state →
        first.Later (fun _ => True) b → Transducer.step b = (.error f, c) →
          (f = .error (.corruptedDelta .endedEarly) ∧ Patcher.CutOff b c) ∨
            ∃ d e, f = .error e ∧ Patcher.MovesTo b d ∧ Patcher.Fails d e c ∧
              Patcher.Aftermath c e :=
  ⟨fun _ => ⟨_, rfl⟩, DeltaEncoder.step_ne, fun _ _ _ _ => SignatureLoader.after_error,
    fun _ _ _ _ hstart => Patcher.after_error hstart rfl⟩

/-! ## An opcode that is forgotten -/

/-- A patch of an empty basis, before a delta that starts with an unknown opcode. -/
def Patcher.beforeOpcode : Bench (Patcher StoredBasis) :=
  ⟨⟨⟨#[]⟩, 0, true, .mark, .empty, .empty, 0⟩, (Queue.ofCapacity 64).append (deltaMark ++ [7]),
    .ofCapacity 1⟩

theorem Patcher.step_beforeOpcode : ∃ c,
    Transducer.step beforeOpcode = (.error (.error (.corruptedDelta (.unknownOpcode 7))), c) ∧
      c.state = ⟨⟨#[]⟩, 0, true, .opcode, .empty, .empty, 0⟩ ∧ c.input.content = [] := by
  obtain ⟨b, c, hnext, hfail, hstate, hnil⟩ : ∃ b c, move beforeOpcode = .next b ∧
      move b = .fail (.corruptedDelta (.unknownOpcode 7)) c ∧
        c.state = ⟨⟨#[]⟩, 0, true, .opcode, .empty, .empty, 0⟩ ∧ c.input.content = [] :=
    ⟨_, _, rfl, rfl, rfl, rfl⟩
  exact ⟨c, (transducer_step_of_next hnext).trans (transducer_step_of_fail hfail), hstate, hnil⟩

/-- The patcher is made done by a closing record. -/
theorem Bench.aftermath_of_error_opcode : ∃ c, Transducer.step Patcher.beforeOpcode =
      (.error (.error (.corruptedDelta (.unknownOpcode 7))), c) ∧
    ∀ d, c.Tended d (Instruction.close Blake3.Hasher.empty.digest).encode → d.input.ended = true →
      (Transducer.step d).1 = .ok .done := by
  obtain ⟨c, hstep, hstate, hnil⟩ := Patcher.step_beforeOpcode
  obtain ⟨-, -, -, hpatcher⟩ := Bench.aftermath_of_error (⟨#[]⟩ : StoredBasis) true
  rcases hpatcher _ _ c _ rfl .now hstep with ⟨hf, -⟩ | ⟨_, e, hf, -, -, haftermath⟩
  · cases hf
  · cases hf
    refine ⟨c, hstep, fun d ht hended => haftermath hnil d ?_ hended⟩
    rwa [hstate]

/-- So its failure was not final. -/
theorem Patcher.failure_not_final : ¬ ∀ (b c : Bench (Patcher StoredBasis)) (f : Failure),
    start (⟨#[]⟩ : StoredBasis) true = .ok b.state → Transducer.step b = (.error f, c) →
      c.Final fun _ => True := by
  intro hfinal
  obtain ⟨c, hstep, hstate, hnil⟩ := step_beforeOpcode
  let record := (Instruction.close Blake3.Hasher.empty.digest).encode
  let d : Bench (Patcher StoredBasis) :=
    ⟨c.state, ((Queue.ofCapacity 64).append record).finish, .ofCapacity 1⟩
  have hlen : record.length ≤ (Queue.ofCapacity 64).room := by
    rw [Instruction.length_encode]
    decide
  have hcontent : d.input.content = record := by
    rw [Queue.content_finish, Queue.content_append, Queue.content_ofCapacity,
      List.take_of_length_le hlen]
    rfl
  have htended : c.Tended d record := ⟨rfl, by rw [hcontent, hnil]; rfl, fun _ => rfl⟩
  refine hfinal _ c _ rfl hstep d (.tended .now htended trivial) ?_
  change (Transducer.step (⟨c.state, _, _⟩ : Bench (Patcher StoredBasis))).1 = _
  rw [hstate]
  exact done_of_close hcontent rfl

end BlockSync
