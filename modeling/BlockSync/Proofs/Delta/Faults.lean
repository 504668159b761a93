import BlockSync.Proofs.Delta.Acceptance
import BlockSync.Proofs.Delta.Accounts
import BlockSync.Proofs.Retrying

/-!
# Patching from a basis that fails

A basis may refuse to be read at any time, and be read later. What a patcher will put out does not
change when a read fails.

* **`Patcher.proceeds_of_readFails`**: a read that fails changes nothing of what was to be expected;
* **`Patcher.sturdy`**: no step does;
* `Patcher.output_of_fail`, **`Patcher.thorough`**: a patcher refuses a delta only where nothing more
  can be read from it;
* **`Patcher.no_fault`**: without faults of the basis no step fails for one.
-/

namespace BlockSync

namespace Patcher

variable {β : Type} [Basis β] {Holds : β → Bytes → Prop} {basis : Bytes} {b c : Bench (Patcher β)}
  {e : TransferError}

/-! ## Reads that fail -/

/-- A patcher of the basis has gone on from one bench to another, and nothing has changed of what was
to be expected. -/
structure Proceeds (Holds : β → Bytes → Prop) (basis : Bytes) (b c : Bench (Patcher β)) : Prop where
  works : Works Holds basis c.state
  keeps : (outlook Holds basis).Keeps b c
  alongside : Alongside b c

/-- **A read that fails changes nothing of what was to be expected.** -/
theorem proceeds_of_readFails (hb : Basis.Flaky Holds) (h : Works Holds basis b.state) {f : Fault}
    (hr : ReadFails f b c) : Proceeds Holds basis b c := by
  obtain ⟨offset, remaining, hs, -, -, -, rfl⟩ := hr
  have hfit := h.stage
  rw [hs] at hfit
  obtain ⟨-, hw⟩ : b.state.field = .empty ∧ offset + remaining ≤ basis.length := hfit
  have hle : offset + min remaining b.output.room ≤ basis.length := by omega
  refine ⟨⟨(hb.readAt h.holds hle).1, h.basisSize, h.stage⟩, ?_, rfl, rfl, rfl⟩
  refine keeps_of_reading [] (fun rest => ?_) rfl rfl rfl (List.append_nil _).symm
  rw [Reading.after_nil]
  rfl

/-- A move that does not fail for its basis does what it would do if the basis could not fail. -/
theorem leads_of_move (hb : Basis.Flaky Holds) (h : Works Holds basis b.state)
    {m : Move (Bench (Patcher β))} (hm : move b = m) (hio : ∀ f c, m ≠ .fail (.io f) c) :
    Leads Holds basis b m := by
  subst hm
  obtain ⟨⟨β', size, verify, stage, field, hasher, written⟩, input, output⟩ := b
  cases stage with
  | mark => exact move_mark h
  | opcode => exact move_opcode h
  | copyRange => exact move_copyRange h
  | copying offset remaining =>
    obtain ⟨-, hw⟩ : field = .empty ∧ offset + remaining ≤ basis.length := h.stage
    refine move_copying_of_readAt h fun hz hr => ?_
    obtain ⟨hholds, hshows⟩ := hb.readAt h.holds
      (show offset + min remaining output.room ≤ basis.length by omega)
    have hgiven : ∀ f, ¬ Basis.Refuses β' offset (min remaining output.room) f := fun f hf => by
      obtain ⟨c, hc⟩ := fail_of_refuses
        (b := ⟨⟨β', size, verify, .copying offset remaining, field, hasher, written⟩, input, output⟩)
        rfl hz hr hf
      exact hio f c hc
    rcases hread : Basis.readAt β' offset (min remaining output.room) with ⟨f | bs, β''⟩
    · exact absurd (.inl (by rw [hread])) (hgiven f)
    · rw [hread] at hholds hshows
      by_cases hl : bs.length = min remaining output.room
      · obtain rfl := hshows bs rfl hl
        exact ⟨β'', rfl, hholds⟩
      · exact absurd (.inr ⟨rfl, bs, by rw [hread], hl⟩) (hgiven _)
  | insertLength => exact move_insertLength h
  | inserting => exact move_inserting h
  | checksum => exact move_checksum h
  | done => exact move_done h

/-! ## Moves and steps -/

omit [Basis β] in
theorem Proceeds.refl (h : Works Holds basis b.state) : Proceeds Holds basis b b :=
  ⟨h, Outlook.Keeps.refl _ _, rfl, rfl, rfl⟩

omit [Basis β] in
theorem Proceeds.trans {d : Bench (Patcher β)} (h : Proceeds Holds basis b c)
    (h' : Proceeds Holds basis c d) : Proceeds Holds basis b d :=
  ⟨h'.works, h.keeps.trans h.alongside.ended h'.keeps, h.alongside.trans h'.alongside⟩

theorem proceeds_of_movesTo (hb : Basis.Flaky Holds) (h : Works Holds basis b.state)
    (hm : MovesTo b c) : Proceeds Holds basis b c := by
  induction hm with
  | refl => exact .refl h
  | tail _ hmove ih =>
    obtain ⟨hw, hk, ha⟩ := leads_of_move hb ih.works hmove (by simp)
    exact ih.trans ⟨hw, hk, ha⟩

/-- What moves until something is lacking lead to, unless the basis fails. -/
theorem arrives_of_moves (hb : Basis.Flaky Holds) (h : Works Holds basis b.state)
    (hio : ∀ f c, moves b ≠ (.error (.io f), c)) : Arrives Holds basis b (moves b) := by
  induction b using moves.induct with
  | case1 b c hmove _ ih =>
    rw [moves_of_next hmove] at hio ⊢
    obtain ⟨hw, hk, ha⟩ := leads_of_move hb h hmove (by simp)
    exact (ih hw hio).of_next hk ha
  | case2 b reason c hmove =>
    rw [moves_of_halt hmove]
    exact leads_of_move hb h hmove (by simp)
  | case3 b e c hmove =>
    rw [moves_of_fail hmove] at hio ⊢
    refine leads_of_move hb h hmove fun f c' hfail => ?_
    cases hfail
    exact hio _ _ rfl

/-- **No step changes what a patcher will put out, or why it refuses its delta**, not even one that
fails for its basis. -/
theorem sturdy (hb : Basis.Flaky Holds) : (outlook Holds basis).Sturdy where
  served h hv := by
    change Works Holds basis _
    rw [hv.state]
    exact h
  step {b c result} h hstep := by
    by_cases hio : ∃ f, result = .error (.error (.io f))
    · obtain ⟨f, rfl⟩ := hio
      obtain ⟨d, hmoves, hfails⟩ := readFails_of_step hstep
      have hd := proceeds_of_movesTo hb h hmoves
      have hc := hd.trans (proceeds_of_readFails hb hd.works hfails)
      exact .of_ok hc.works hc.keeps hc.alongside.ended hc.alongside.inputCapacity
        hc.alongside.outputCapacity nofun
    · rw [forgive_eq fun f hf => hio ⟨f, hf⟩]
      obtain ⟨rfl, rfl⟩ := eq_of_step hstep
      refine respects_of_arrives (arrives_of_moves hb h fun f d hm => hio ⟨f, ?_⟩)
      rw [step_of_moves_error hm]
      rfl

/-- **Without faults of its basis no step of a patcher fails for one.** -/
theorem no_fault (hb : Basis.Faithful Holds) (h : Works Holds basis b.state) (f : Fault) :
    (Transducer.step b).1 ≠ .error (.error (.io f)) := by
  intro hstep
  obtain ⟨d, hmoves, offset, remaining, hs, -, -, hrefuses, -⟩ :=
    readFails_of_step (Prod.ext hstep rfl)
  have hd := (proceeds_of_movesTo hb.flaky h hmoves).works
  have hfit := hd.stage
  rw [hs] at hfit
  obtain ⟨-, hw⟩ : d.state.field = .empty ∧ offset + remaining ≤ basis.length := hfit
  exact hb.not_refuses hd.holds (by omega) hrefuses

/-! ## Refusals -/

/-- A move that refuses a delta is not one that writes. -/
theorem output_of_fail (h : Works Holds basis b.state) (hm : move b = .fail e c)
    (hio : ∀ f, e ≠ .io f) (rest : Bytes) :
    (b.state.reading basis (b.input.content ++ rest)).output = [] := by
  obtain ⟨⟨β', size, verify, stage, field, hasher, written⟩, input, output⟩ := b
  cases stage with
  | mark =>
    obtain ⟨q, -, -, ⟨bs, hc, hl, hcont⟩ | ⟨hc, -, -⟩⟩ := Field.collect_spec h.stage input
    · simp only [move, hc, takeMark] at hm
      by_cases hmark : bs = deltaMark
      · rw [if_pos hmark] at hm
        cases hm
      · simp only [reading]
        rw [← List.append_assoc, hcont, List.append_assoc, readDelta_field basis hl, if_neg hmark]
        rfl
    · simp only [move, hc] at hm
      cases hm
  | opcode =>
    have hfront := input.front_eq 1
    cases hcont : input.content with
    | nil =>
      rw [hcont, List.take_nil] at hfront
      simp only [move, hfront] at hm
      cases hm
    | cons code bs =>
      rw [hcont, List.take_succ_cons] at hfront
      simp only [move, hfront, stageOf] at hm
      simp only [reading, List.cons_append]
      rw [readInstructions_cons]
      by_cases hcopy : code = copyOpcode
      · rw [if_pos hcopy] at hm
        cases hm
      rw [if_neg hcopy] at hm ⊢
      by_cases hinsert : code = insertOpcode
      · rw [if_pos hinsert] at hm
        cases hm
      rw [if_neg hinsert] at hm ⊢
      by_cases hclose : code = closeOpcode
      · rw [if_pos hclose] at hm
        cases hm
      · rw [if_neg hclose]
        rfl
  | copyRange =>
    obtain rfl : size = basis.length := h.basisSize
    obtain ⟨q, -, -, ⟨bs, hc, hl, hcont⟩ | ⟨hc, -, -⟩⟩ := Field.collect_spec h.stage input
    · simp only [move, hc, stageOfRange] at hm
      simp only [reading]
      rw [← List.append_assoc, hcont, List.append_assoc, readCopy_field basis hl]
      dsimp only
      by_cases hw : BigEndian.decode (bs.take 8) + BigEndian.decode (bs.drop 8) ≤ basis.length
      · rw [if_pos hw] at hm
        cases hm
      · rw [if_neg hw]
        rfl
    · simp only [move, hc] at hm
      cases hm
  | copying offset remaining =>
    -- a copy fails only where the basis does
    simp only [move] at hm
    split at hm
    · cases hm
    · split at hm
      · cases hm
      · split at hm
        · cases hm
          exact absurd rfl (hio _)
        · split at hm <;> cases hm
          exact absurd rfl (hio _)
  | insertLength =>
    obtain ⟨q, -, -, ⟨bs, hc, hl, hcont⟩ | ⟨hc, -, -⟩⟩ := Field.collect_spec h.stage input
    · simp only [move, hc] at hm
      cases hm
    · simp only [move, hc] at hm
      cases hm
  | inserting remaining =>
    simp only [move] at hm
    split at hm
    · cases hm
    · split at hm <;> cases hm
  | checksum =>
    obtain ⟨q, -, -, ⟨bs, hc, hl, hcont⟩ | ⟨hc, -, -⟩⟩ := Field.collect_spec h.stage input
    · simp only [reading]
      rw [← List.append_assoc, hcont, List.append_assoc, readClosing_field hl]
    · simp only [move, hc] at hm
      cases hm
  | done => rfl


theorem exhausts_of_moves (hb : Basis.Flaky Holds) (h : Works Holds basis b.state)
    (hm : moves b = (.error e, c)) (hio : ∀ f, e ≠ .io f) : (outlook Holds basis).Exhausts b c := by
  obtain ⟨d, hmoves, hfail⟩ := movesTo_of_error hm
  have hd := proceeds_of_movesTo hb h hmoves
  have hl := leads_of_move hb hd.works hfail fun f c' hf => by
    cases hf
    exact hio f rfl
  exact hd.keeps.exhausts hd.alongside.ended
    (hl.1.exhausts fun rest _ => output_of_fail hd.works hfail hio rest)

/-- **A patcher refuses a delta only where nothing more can be read from it.** -/
theorem exhausts_of_step (hb : Basis.Flaky Holds) (h : Works Holds basis b.state) {f : Failure}
    (hstep : Transducer.step b = (.error f, c)) (hio : ∀ g, f ≠ .error (.io g)) :
    (outlook Holds basis).Exhausts b c := by
  obtain ⟨hs, rfl⟩ := eq_of_step hstep
  rcases hm : moves b with ⟨e | reason, c⟩
  · rw [step_of_moves_error hm] at hs ⊢
    refine exhausts_of_moves hb h hm fun g he => hio g ?_
    rw [← Except.error.inj hs, he]
  · have hspec := arrives_of_moves hb h fun f d hf => by
      rw [hm] at hf
      cases hf
    rw [hm] at hspec
    obtain ⟨hw, hk, ha, hh⟩ := hspec
    rw [step_of_moves hm] at hs ⊢
    split
    · next hd =>
      rw [if_pos hd] at hs
      cases hs
    · next hd =>
      rw [if_neg hd] at hs
      split
      · next hend =>
        obtain ⟨rfl, hat⟩ := hend
        obtain ⟨hended, hnil⟩ := c.input.atEnd_iff.mp hat
        refine hk.exhausts ha.ended fun rest hrest => ?_
        have hearly : (c.state.reading basis []).output = [] := by
          rw [reading_nil hw hd hh.2]
          rfl
        simp only [Outlook.ahead, outlook, foresee]
        rw [hnil, hrest hended, List.append_nil, hearly, List.append_nil]
      · next hend =>
        rw [if_neg hend] at hs
        cases hs

theorem thorough (hb : Basis.Faithful Holds) : (outlook Holds basis).Thorough := by
  intro b c f h hstep
  refine exhausts_of_step hb.flaky h hstep fun g hg => no_fault hb h g ?_
  rw [hstep, hg]

end Patcher

end BlockSync
