import BlockSync.Proofs.Delta.Faults
import BlockSync.Proofs.Exchange.Delta

/-!
# Bases that cannot be read

A basis may tell its size and refuse every read, as a directory does. A delta can be applied to it if
nothing has to be copied.

* `IsBlindDelta`: the byte strings that are deltas of a file against every basis of some size;
  `isBlindDelta_iff`: those that build the same from all of them;
* `Patcher.Indifferent`: so does what is left of a delta; `Patcher.not_indifferent`: not in the midst of
  a copy;
* `Patcher.blindOutlook`: what a patcher will put out that cannot read its basis;
  **`Patcher.sound_of_mute`**: no step changes it;
* **`Exchange.writePatched_of_mute`**: with such a basis just the blind deltas are accepted.
-/

namespace BlockSync

/-- A basis of which only the size matters. -/
def blank (size : Nat) : Bytes := List.replicate size 0

@[simp] theorem length_blank (size : Nat) : (blank size).length = size := List.length_replicate ..

/-- The byte string is the delta of a file, whatever is in the basis. -/
def IsBlindDelta (size : Nat) (verify : Bool) (delta file : Bytes) : Prop :=
  ∀ basis : Bytes, basis.length = size → IsDelta basis verify delta file

/-- A delta of a file against one basis is a delta against all of its size if it builds the same from
them. -/
theorem isBlindDelta_iff {size : Nat} {verify : Bool} {delta file : Bytes} :
    IsBlindDelta size verify delta file ↔ IsDelta (blank size) verify delta file ∧
      ∀ basis : Bytes, basis.length = size → (readDelta basis delta).output = file := by
  constructor
  · intro h
    exact ⟨h _ (length_blank size), fun basis hl =>
      ((firstOffence_eq_none_iff ..).mpr (h basis hl)).2.symm⟩
  · rintro ⟨⟨is, checksum, his, hdelta, -, hv⟩, hsame⟩ basis hl
    rw [length_blank, ← hl] at his
    have hread : readDelta basis delta = ⟨rebuild basis is, .closed checksum []⟩ :=
      (readDelta_closed_iff ..).mpr ⟨is, his, hdelta, rfl⟩
    have hout := hsame basis hl
    rw [hread] at hout
    exact ⟨is, checksum, his, hdelta, hout.symm, hv⟩

theorem IsBlindDelta.unique {size : Nat} {verify : Bool} {delta file file' : Bytes}
    (h : IsBlindDelta size verify delta file) (h' : IsBlindDelta size verify delta file') :
    file = file' :=
  ((isBlindDelta_iff.mp h).2 _ (length_blank size)).symm.trans
    ((isBlindDelta_iff.mp h').2 _ (length_blank size))

/-- A future that comes to a fault of the environment unless something holds. -/
def Future.faultyUnless {ρ : Type} (future : Future ρ) (P : Prop) : Future ρ :=
  { future with refused := fun f => future.refused f ∨ (∃ fault, f = .error (.io fault)) ∧ ¬ P }

namespace Patcher

variable {β : Type} {size : Nat} {Good : β → Prop} {b c : Bench (Patcher β)}

/-! ## What does not depend on the basis -/

/-- What is left of a delta builds the same from every basis of this size. -/
def Indifferent (size : Nat) (p : Patcher β) (rest : Bytes) : Prop :=
  ∀ basis : Bytes, basis.length = size →
    (p.reading basis rest).output = (p.reading (blank size) rest).output

/-- It matters what is in the basis when a part of it is to be copied. -/
theorem not_indifferent {p : Patcher β} {offset remaining : Nat}
    (hs : p.stage = .copying offset remaining) (hpos : 0 < remaining) (hle : offset + remaining ≤ size)
    (rest : Bytes) : ¬ Indifferent size p rest := by
  intro h
  obtain ⟨n, hn⟩ : ∃ n, min remaining (size - offset) = n + 1 :=
    Nat.exists_eq_add_one.mpr (by omega)
  have hcopied : ∀ v : UInt8, (p.reading (List.replicate size v) rest).output =
      v :: (List.replicate n v ++ (readInstructions (List.replicate size v) rest).output) := fun v => by
    simp only [reading, hs, Reading.after, List.drop_replicate, List.take_replicate, hn,
      List.replicate_succ, List.cons_append]
  have hsame := h (List.replicate size 1) (List.length_replicate ..)
  rw [blank, hcopied, hcopied] at hsame
  exact absurd (List.cons.inj hsame).1 (by decide)

/-- What a patcher will put out that cannot read its basis: what it would put out from a blank one,
unless that depends on the basis. -/
def blindOutlook (Good : β → Prop) (size : Nat) : Outlook (Patcher β) Nat where
  Fit b := ∀ basis : Bytes, basis.length = size → Works (Basis.MayHold Good size) basis b.state
  future p rest := (p.foresee (p.reading (blank size) rest)).faultyUnless (Indifferent size p rest)

/-- What is kept of every basis that a patcher may have is kept of the one that it cannot read. -/
theorem keeps_blind (h : ∀ basis : Bytes, basis.length = size →
    (outlook (Basis.MayHold Good size) basis).Keeps b c) : (blindOutlook Good size).Keeps b c := by
  obtain ⟨made, hmade, hahead⟩ := h _ (length_blank size)
  refine ⟨made, hmade, fun rest hrest => ?_⟩
  have hread : ∀ basis : Bytes, basis.length = size →
      (b.state.reading basis (b.input.content ++ rest)).output =
        made ++ (c.state.reading basis (c.input.content ++ rest)).output := by
    intro basis hl
    obtain ⟨made', hmade', hahead'⟩ := h basis hl
    obtain rfl : made' = made := List.append_cancel_left (hmade'.symm.trans hmade)
    exact congrArg Future.output (hahead' rest hrest)
  have hiff : Indifferent size b.state (b.input.content ++ rest) ↔
      Indifferent size c.state (c.input.content ++ rest) := by
    refine forall₂_congr fun basis hl => ?_
    rw [hread basis hl, hread _ (length_blank size), List.append_right_inj]
  have hblank := hahead rest hrest
  simp only [Outlook.ahead, outlook] at hblank
  simp only [Outlook.ahead, blindOutlook, hblank, hiff, Future.faultyUnless, Future.after]

/-- The same of all that a step respects. -/
theorem respects_blind {result : Except Failure Status} (h : ∀ basis : Bytes, basis.length = size →
    (outlook (Basis.MayHold Good size) basis).Respects b result c) :
    (blindOutlook Good size).Respects b result c := by
  have hblank := h _ (length_blank size)
  refine ⟨hblank.ended, hblank.inputCapacity, hblank.outputCapacity,
    fun status hst basis hl => (h basis hl).fit status hst,
    fun status hst => keeps_blind fun basis hl => (h basis hl).kept status hst, fun hd => ?_,
    fun f hf => ?_⟩
  · obtain ⟨hended, hnil, hnone⟩ := hblank.done hd
    refine ⟨hended, hnil, fun f hf => ?_⟩
    rcases hf with hf | ⟨-, hdiffers⟩
    · exact hnone f hf
    · exact hdiffers fun basis hl => ((h basis hl).done hd).2.1.trans hnil.symm
  · obtain ⟨made, hmade, hb⟩ := hblank.error f hf
    exact ⟨made, hmade, fun rest hrest => ⟨(hb rest hrest).1, .inl (hb rest hrest).2⟩⟩

variable [Basis β]

/-! ## Steps -/

/-- A step that has to read its basis fails, and that was to be expected. -/
theorem respects_of_readFails (hm : Basis.Mute Good size) (h : ∀ basis : Bytes, basis.length = size →
    Works (Basis.MayHold Good size) basis b.state) {f : Fault}
    (hstep : Transducer.step b = (.error (.error (.io f)), c)) :
    (blindOutlook Good size).Respects b (.error (.error (.io f))) c := by
  obtain ⟨d, hmoves, offset, remaining, hs, hpos, -, -, rfl⟩ := readFails_of_step hstep
  have hd := fun basis hl => proceeds_of_movesTo hm.flaky (h basis hl) hmoves
  obtain ⟨hworks, -, hended, hinput, houtput⟩ := hd _ (length_blank size)
  have hfit := hworks.stage
  rw [hs, length_blank] at hfit
  have hbreaks : (blindOutlook Good size).Breaks d
      ⟨{ d.state with basis := (Basis.readAt d.state.basis offset (min remaining d.output.room)).2 },
        d.input, d.output⟩ (.error (.io f)) :=
    ⟨[], (List.append_nil _).symm, fun rest _ =>
      ⟨List.nil_prefix, .inr ⟨⟨f, rfl⟩, not_indifferent hs hpos hfit.2 _⟩⟩⟩
  have hkeeps := keeps_blind fun basis hl => (hd basis hl).keeps
  exact .of_error (hkeeps.breaks hended hbreaks) hended hinput houtput

/-- **A patcher that cannot read its basis does what was to be expected of it.** -/
theorem sound_of_mute (hm : Basis.Mute Good size) : (blindOutlook Good size).Sound where
  served h hv basis hl := by
    rw [hv.state]
    exact h basis hl
  step {b c result} h hstep := by
    by_cases hio : ∃ f, result = .error (.error (.io f))
    · obtain ⟨f, rfl⟩ := hio
      exact respects_of_readFails hm h hstep
    · refine respects_blind fun basis hl => ?_
      have hsturdy := (sturdy hm.flaky).step (h basis hl) hstep
      rwa [forgive_eq fun f hf => hio ⟨f, hf⟩] at hsturdy

theorem prompt_of_mute : (blindOutlook Good size).Prompt Owes where
  served := (prompt : (outlook (Basis.MayHold Good size) (blank size)).Prompt Owes).served
  owes h := prompt.owes (h _ (length_blank size))
  pays h := prompt.pays (h _ (length_blank size))

/-! ## Runs -/

/-- What is to be expected of a patch from a basis that cannot be read. -/
theorem tells_of_mute (hm : Basis.Mute Good size) {stored : β} (hg : Good stored) (verify : Bool) :
    ∃ p, start stored verify = .ok p ∧ (blindOutlook Good size).Tells p ∧
      (∀ n, p.outputBound n = (size + 1) * n) ∧
      ∀ delta, (blindOutlook Good size).future p delta =
        ((readDelta (blank size) delta).future verify).faultyUnless
          (∀ basis : Bytes, basis.length = size →
            (readDelta basis delta).output = (readDelta (blank size) delta).output) := by
  have hstart : start stored verify =
      .ok ⟨(Basis.size stored).2, size, verify, .mark, .empty, .empty, 0⟩ := by
    rw [start, ← Prod.eta (Basis.size stored), (hm.size hg).1]
  have htells := fun (basis : Bytes) (hl : basis.length = size) =>
    tells_of_start hm.flaky ⟨hg, hl⟩ hstart
  refine ⟨_, hstart, fun input output hi basis hl => (htells basis hl).1 input output hi,
    fun _ => rfl, fun delta => ?_⟩
  rw [← (htells _ (length_blank size)).2 delta]
  rfl

end Patcher

/-! ## Applying a delta -/

namespace Exchange

variable {σ κ β : Type} [Source σ] [Sink κ] [Basis β] {Taken : κ → Bytes → Bool → Prop}
  {Good : β → Prop} {size : Nat} {stored : β} {delta : Bytes}

/-- **The phase that applies a delta to a basis that cannot be read writes its file if that does not
depend on the basis, and fails otherwise.** -/
theorem writePatched_of_mute (x : Exchange) (hm : Basis.Mute Good size) (hg : Good stored)
    (hsink : Sink.Faithful Taken true framePayloadLimit) {source : σ}
    (hsource : Source.Delivers source ⟨delta, .ok ()⟩) {sink : κ} (hk : Taken sink [] false) :
    match x.writePatched stored source sink with
    | (.ok n, sink') => ∃ file, IsBlindDelta size x.settings.verify delta file ∧
        Taken sink' file true ∧ n = file.length
    | (.error _, _) => ¬ ∃ file, IsBlindDelta size x.settings.verify delta file := by
  obtain ⟨p, hp, htells, hbound, hfuture⟩ := Patcher.tells_of_mute hm hg x.settings.verify
  have hresult := Pipe.run_spec (Patcher.sound_of_mute hm) htells Patcher.prompt_of_mute hsink
    (fun hc => nomatch hc) hsource hk x.pipe (p.outputBound (Source.available source)) fun havail => by
      have hlen := length_readDelta_le (blank size) delta
      rw [length_blank] at hlen
      rw [hfuture, hbound]
      exact Nat.le_trans hlen (Nat.mul_le_mul_left _ havail)
  rw [hfuture] at hresult
  simp only [writePatched, hp]
  rcases hrun : x.pipe.run _ source p sink with ⟨f | totals, run⟩ <;> rw [hrun] at hresult
  · rintro ⟨file, hfile⟩
    obtain ⟨hdelta, hsame⟩ := isBlindDelta_iff.mp hfile
    obtain ⟨hnone, hblank⟩ := (firstOffence_eq_none_iff ..).mpr hdelta
    rcases hresult.1 with ⟨e, -, he⟩ | hf | ⟨-, hdiffers⟩
    · cases he
    · obtain ⟨e, o, -, -, ho⟩ := Ending.offence_of_refuses (readDelta_proper ..) hf
      rw [firstOffence, ho] at hnone
      cases hnone
    · exact hdiffers fun basis hl => (hsame basis hl).trans hblank
  · obtain ⟨-, hnone, hsched, ⟨hnil, hquiet⟩, hwritten, htaken⟩ := hresult
    have hsame : ∀ basis : Bytes, basis.length = size →
        (readDelta basis delta).output = (readDelta (blank size) delta).output := by
      by_contra hdiffers
      exact hnone (.error (.io .unexpectedEof)) (.inr ⟨⟨_, rfl⟩, hdiffers⟩)
    have hplain : Run.Result Taken true (Patcher.outlook (Basis.MayHold Good size) (blank size)) p
        ((readDelta (blank size) delta).future x.settings.verify) (.ok ()) (.ok totals, run) :=
      ⟨rfl, fun f hf => hnone f (.inl hf), hsched, ⟨hnil, fun f hf => hquiet f (.inl hf)⟩, hwritten,
        htaken⟩
    obtain ⟨hoffence, hfile, hn⟩ := Patcher.verdict_of_result hplain
    have hdelta := (firstOffence_eq_none_iff ..).mp ⟨hoffence, rfl⟩
    exact ⟨_, isBlindDelta_iff.mpr ⟨hdelta, hsame⟩, hfile, hn⟩

end Exchange

end BlockSync
