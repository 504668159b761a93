import BlockSync.Proofs.Exchange.Whole
import BlockSync.Proofs.Pipe.Broken

/-!
# Truncated transfers

What a phase of an exchange has written over a connection is cut somewhere, or the phase has failed
before its end. The phase at the other end then never takes what it reads for a complete transfer.

* `FramedSink.unlimited`: a sink like another whose writer never fails;
* `Exchange.carries_of_writeSignature`, `Exchange.carries_of_writeDelta`: what a phase that has
  succeeded leaves on the wire;
* `Exchange.readSignature_of_broken`, `Exchange.writePatched_of_broken`: a stream that breaks off fails
  with that, if the whole of it would have been accepted;
* **`Exchange.truncated_never_accepted`**: a cut is always noticed.
-/

namespace BlockSync

namespace FramedSink

/-- The sink with a writer that never fails. -/
def unlimited (s : FramedSink) : FramedSink :=
  { s with writer := { s.writer with limit := none, flushFault := none } }

theorem writeAll_unlimited {w w' : Writer} {bs : Bytes} (h : w.writeAll bs = (.ok (), w')) :
    ({ w with limit := none, flushFault := none } : Writer).writeAll bs =
      (.ok (), { w' with limit := none, flushFault := none }) := by
  obtain ⟨written, flushes, limit, writeFault, flushFault⟩ := w
  simp only [Writer.writeAll, Prod.mk.injEq] at h
  obtain ⟨hok, rfl⟩ := h
  split at hok
  · next hc =>
    have hall : (⟨written, flushes, none, writeFault, none⟩ : Writer).takes bs.length = bs.length := rfl
    simp only [Writer.writeAll, hc, hall, if_true]
  · cases hok

theorem write_unlimited {w w' : Writer} {payload : Bytes} {last : Bool}
    (h : Frame.write w payload last = (.ok (), w')) :
    Frame.write { w with limit := none, flushFault := none } payload last =
      (.ok (), { w' with limit := none, flushFault := none }) := by
  unfold Frame.write at h ⊢
  split at h
  · cases h
  · next header hh =>
    split at h
    · cases h
    · next w₁ h₁ =>
      split at h
      · cases h
      · next w₂ h₂ =>
        obtain rfl : w₂.flush.2 = w' := congrArg Prod.snd h
        simp only [writeAll_unlimited h₁, writeAll_unlimited h₂]
        rfl

/-- It takes every push that the sink takes. -/
theorem alike_unlimited : Sink.Alike unlimited fun _ => False where
  takesOutput _ := rfl
  push s chunk last hok := by
    change ∀ e, (s.push chunk last).1 = .error e → False at hok
    change s.unlimited.push chunk last = ((s.push chunk last).1, (s.push chunk last).2.unlimited)
    unfold push at hok ⊢
    change (if s.finished = true then _ else _) = _
    split
    · rfl
    · next hf =>
      rw [if_neg hf] at hok
      split
      · rfl
      · next hl =>
        rw [if_neg hl] at hok
        rcases hw : Frame.write s.writer chunk last with ⟨e | ⟨⟩, w⟩ <;> rw [hw] at hok
        · exact (hok _ rfl).elim
        · have := write_unlimited hw
          simp only [unlimited, this]

/-- A writer that never fails makes a framed sink faithful. -/
theorem faithful_carries (before : Bytes) :
    Sink.Faithful (fun s bs ended => s.writer.Reliable ∧ Carries before s bs ended) true
      framePayloadLimit where
  takesOutput _ := rfl
  push {s bs} _ h chunk hl last := by
    obtain ⟨s', hpush, hr, -, -⟩ := push_of_reliable h.1 h.2.1 hl last
    exact ⟨s', hpush, hr, (honest before).push h.2 hl hpush⟩

/-- A complete stream has a last frame. -/
theorem written_ne_nil {s : FramedSink} {bs : Bytes} (h : FramedSink.Holds [] s bs true) :
    s.writer.written.toList ≠ [] := by
  obtain ⟨-, -, wire, hw, hflow⟩ := h
  intro hnil
  obtain rfl : wire = [] := hw.symm.trans hnil
  have hend := hflow ⟨[], .ok ()⟩
  have hshort := @Frame.flow_of_short ⟨[], .ok ()⟩ Nat.zero_lt_two
  rw [Flow.after_nil, hshort] at hend
  cases hend

/-- No run succeeds with a sink that has been told of the end before. -/
theorem finished_of_ok {σ τ : Type} [Source σ] [Transducer τ] (hb : Source.Bounded σ)
    (ho : Transducer.Orderly τ) {p : Pipe} {limit : Nat} {source : σ} {state : τ} {sink : FramedSink}
    {totals : PipeTotals} {r : Run σ τ FramedSink Unit}
    (h : p.run limit source state sink = (.ok totals, r)) : sink.finished = false := by
  by_contra hf
  have hhonest : Sink.Honest (fun (s : FramedSink) _ ended => s.finished = true ∧ ended = false)
      framePayloadLimit := ⟨fun {s _ _ chunk last} hs _ hpush => by
    have hfail := push_of_finished hs.1 chunk last
    rw [hpush] at hfail
    cases hfail⟩
  obtain ⟨-, -, hc⟩ := Pipe.holds_of_ok hb ho hhonest rfl ⟨by simpa using hf, rfl⟩ h
  cases hc

end FramedSink

namespace Exchange

variable {σ β κ : Type} [Source σ] [Basis β] [Sink κ] (x y : Exchange)

/-! ## What is left on the wire -/

omit [Basis β] [Sink κ] in
/-- The signature of a basis is on the wire when the phase that writes it has succeeded. -/
theorem carries_of_writeSignature (hb : Source.Bounded σ) {size : Nat} {basis : Bytes} {source : σ}
    (hs : Source.Delivers source ⟨basis, .ok ()⟩) {sink sent : FramedSink} {totals : PipeTotals}
    (h : x.writeSignature size source sink = (.ok totals, sent)) :
    ∃ s, SignatureLoader.start.conclude s.encode = .ok s ∧
      FramedSink.Carries sink.writer.written.toList sent s.encode true := by
  cases hp : x.settings.params size with
  | error e => simp [writeSignature, hp, bind, Except.bind] at h
  | ok p =>
    cases hc : p.check with
    | error e => simp [writeSignature, hp, SignatureEmitter.start, hc, bind, Except.bind] at h
    | ok u =>
      have hv := (Params.check_iff p).mp hc
      obtain ⟨s, hsig, -, -⟩ := Signature.ofBytes_spec hv basis
      obtain ⟨e, he, -⟩ := SignatureEmitter.start_spec hv
      have hstart : (x.settings.params size >>= SignatureEmitter.start) = .ok e := by
        rw [hp]
        exact he
      simp only [writeSignature, hstart] at h
      rcases hrun : x.pipe.run (Pipe.iterationsFor (Source.available source)
        (SignatureEmitter.outputBound (Source.available source))) source e sink with ⟨result, r⟩
      rw [hrun] at h
      obtain ⟨rfl, rfl⟩ := Prod.mk.inj h
      have hfinished := FramedSink.finished_of_ok hb SignatureEmitter.orderly hrun
      -- the same phase with a writer that never fails
      have hnew : sink.unlimited.writer.Reliable ∧
          FramedSink.Carries sink.writer.written.toList sink.unlimited [] false :=
        ⟨⟨rfl, rfl⟩, FramedSink.carries_new hfinished⟩
      obtain ⟨totals', sent', hspec, -, hcarries⟩ := x.writeSignature_spec hp hv hsig
        (FramedSink.faithful_carries sink.writer.written.toList) hs hnew
      simp only [writeSignature, hstart, x.pipe.run_of_ok _ _ _ FramedSink.alike_unlimited hrun]
        at hspec
      obtain ⟨-, rfl⟩ := Prod.mk.inj hspec
      exact ⟨s, SignatureLoader.conclude_encode hv hsig, hcarries⟩

omit [Basis β] [Sink κ] in
/-- Some delta is on the wire when the phase that writes it has succeeded. -/
theorem carries_of_writeDelta (hb : Source.Bounded σ) {t : SignatureIndex} {source : σ}
    {sink sent : FramedSink} {totals : DeltaTotals}
    (h : x.writeDelta t source sink = (.ok totals, sent)) :
    ∃ delta, FramedSink.Carries sink.writer.written.toList sent delta true := by
  simp only [writeDelta] at h
  rcases hrun : x.pipe.run (Pipe.iterationsFor (Source.available source)
    (DeltaEncoder.outputBound (Source.available source))) source (DeltaEncoder.start t) sink
    with ⟨result, r⟩
  rw [hrun] at h
  obtain ⟨hok, rfl⟩ := Prod.mk.inj h
  cases result with
  | error f => cases hok
  | ok totals' =>
    exact Pipe.holds_of_ok hb DeltaEncoder.orderly (FramedSink.honest _) rfl
      (FramedSink.carries_new (FramedSink.finished_of_ok hb DeltaEncoder.orderly hrun)) hrun

omit [Basis β] [Sink κ] in
/-- The last frame is not on the wire when the phase that writes a signature has failed. -/
theorem open_of_writeSignature (hb : Source.Bounded σ) {size : Nat} {source : σ}
    {sink sent : FramedSink} (hw : sink.writer.Reliable) (hf : sink.finished = false) {f : Failure}
    (h : x.writeSignature size source sink = (.error f, sent)) :
    ∃ bs, FramedSink.Carries sink.writer.written.toList sent bs false := by
  unfold writeSignature at h
  split at h
  · cases h
    exact ⟨[], FramedSink.carries_new hf⟩
  · next start _ =>
    rcases hrun : x.pipe.run (Pipe.iterationsFor (Source.available source)
      (SignatureEmitter.outputBound (Source.available source))) source start sink with ⟨result, r⟩
    simp only [hrun] at h
    obtain ⟨rfl, rfl⟩ := Prod.mk.inj h
    obtain ⟨bs, -, hcarries⟩ := Pipe.holds_of_error hb SignatureEmitter.orderly
      (FramedSink.faithful_carries sink.writer.written.toList) ⟨hw, FramedSink.carries_new hf⟩ hrun
    exact ⟨bs, hcarries⟩

omit [Basis β] [Sink κ] in
theorem open_of_writeDelta (hb : Source.Bounded σ) {t : SignatureIndex} {source : σ}
    {sink sent : FramedSink} (hw : sink.writer.Reliable) (hf : sink.finished = false) {f : Failure}
    (h : x.writeDelta t source sink = (.error f, sent)) :
    ∃ bs, FramedSink.Carries sink.writer.written.toList sent bs false := by
  simp only [writeDelta] at h
  rcases hrun : x.pipe.run (Pipe.iterationsFor (Source.available source)
    (DeltaEncoder.outputBound (Source.available source))) source (DeltaEncoder.start t) sink
    with ⟨result, r⟩
  rw [hrun] at h
  obtain ⟨herr, rfl⟩ := Prod.mk.inj h
  cases result with
  | ok totals => cases herr
  | error f' =>
    obtain ⟨bs, -, hcarries⟩ := Pipe.holds_of_error hb DeltaEncoder.orderly
      (FramedSink.faithful_carries sink.writer.written.toList) ⟨hw, FramedSink.carries_new hf⟩ hrun
    exact ⟨bs, hcarries⟩

/-! ## What is read of it -/

omit [Basis β] [Sink κ] in
/-- A signature that breaks off is not read, but for that it would have been. -/
theorem readSignature_of_broken {bs front : Bytes} (hfront : front <+: bs) {s : Signature}
    (hok : SignatureLoader.start.conclude bs = .ok s) {e : TransferError} {source : σ}
    (hs : Source.Delivers source ⟨front, .error e⟩) :
    x.readSignature source = .error (.error e) := by
  obtain ⟨rest, rfl⟩ := hfront
  have hresult := SignatureLoader.run_result hs x.pipe
  simp only [readSignature]
  rcases hrun : x.pipe.run (Pipe.iterationsFor (Source.available source) 0) source
    SignatureLoader.start NoSink.mk with ⟨f | totals, r⟩ <;> rw [hrun] at hresult
  · rcases Pipe.expected_of_error SignatureLoader.sound SignatureLoader.tells_start
      SignatureLoader.prompt (NoSink.faithful framePayloadLimit) (fun _ _ => id) hs NoSink.holds_new
      (p := x.pipe) (fun _ => Nat.le_refl 0) (congrArg Prod.fst hrun)
      with ⟨e', rfl, he⟩ | hrefused
    · cases he
      rfl
    · -- what would have followed it is accepted
      obtain ⟨e', he, -⟩ := hrefused rest fun hc => by cases hc
      rw [hok] at he
      cases he
  · obtain ⟨hend, -⟩ := hresult
    cases hend

/-- A delta that breaks off is not applied, but for that it would have been. -/
theorem writePatched_of_broken {stored : β} {basis : Bytes} (hb : Basis.Shows stored basis)
    {bs front : Bytes} (hfront : front <+: bs)
    (hnone : firstOffence basis x.settings.verify bs = none) {e : TransferError} {source : σ}
    (hs : Source.Delivers source ⟨front, .error e⟩) {Taken : κ → Bytes → Bool → Prop}
    (hsink : Sink.Faithful Taken true framePayloadLimit) {target : κ} (ht : Taken target [] false) :
    (x.writePatched stored source target).1 = .error (.error e) := by
  obtain ⟨rest, rfl⟩ := hfront
  obtain ⟨Holds, hb, hstored⟩ := hb
  obtain ⟨p, hp, htells, hbound, hfuture⟩ := Patcher.start_spec hb hstored x.settings.verify
  have hlen : front.length ≤ Source.available source →
      ((Patcher.outlook Holds basis).future p front).output.length ≤
        p.outputBound (Source.available source) := fun havail => by
    rw [hfuture, hbound]
    exact Nat.le_trans (length_readDelta_le basis front) (Nat.mul_le_mul_left _ havail)
  have hresult := Pipe.run_spec (Patcher.sound hb) htells Patcher.prompt hsink
    (fun hc => nomatch hc) hs ht x.pipe _ hlen
  simp only [writePatched, hp]
  rcases hrun : x.pipe.run (Pipe.iterationsFor (Source.available source)
    (p.outputBound (Source.available source))) source p target with ⟨f | totals, r⟩ <;>
    rw [hrun] at hresult
  · rcases Pipe.expected_of_error (Patcher.sound hb) htells Patcher.prompt hsink
      (fun hc => nomatch hc) hs ht hlen (congrArg Prod.fst hrun) with ⟨e', rfl, he⟩ | hrefused
    · cases he
      rfl
    · have hrefuses := hrefused rest fun hc => by cases hc
      rw [hfuture] at hrefuses
      obtain ⟨-, o, -, -, ho⟩ := Ending.offence_of_refuses (readDelta_proper basis _) hrefuses
      change firstOffence basis x.settings.verify (front ++ rest) = some o at ho
      rw [hnone] at ho
      cases ho
  · obtain ⟨hend, -⟩ := hresult
    cases hend

/-- No delta that breaks off is ever applied to its end. -/
theorem writePatched_ne_ok (hb : Source.Bounded σ) {f : Flow TransferError}
    {e : TransferError} {source : σ} (hs : Source.Delivers source f) (he : f.ending = .error e)
    (stored : β) (target : κ) (n : Nat) : (x.writePatched stored source target).1 ≠ .ok n := by
  intro hn
  unfold writePatched at hn
  split at hn
  · cases hn
  · next p _ =>
    rcases hrun : (x.pipe.run (Pipe.iterationsFor (Source.available source)
      (p.outputBound (Source.available source))) source p target).1 with f | totals
    · simp only [hrun] at hn
      cases hn
    · exact Pipe.not_ok_of_broken hb Patcher.orderly Patcher.patient hs he _ _ _ _ _ hrun

/-- What is on the wire is accepted neither as a signature nor as a delta, whoever reads it and however
the connection ends behind it. -/
def NeverAccepted (wire : Bytes) : Prop :=
  ∀ (y : Exchange) (ending : Except Fault Unit) (arriving : FramedSource),
    arriving.Receives ⟨wire, ending⟩ → (∀ s, y.readSignature arriving ≠ .ok s) ∧
      ∀ {β κ : Type} [Basis β] [Sink κ] (stored : β) (target : κ) (n : Nat),
        (y.writePatched stored arriving target).1 ≠ .ok n

omit [Source σ] [Basis β] [Sink κ] in
/-- A wire without a last frame is never accepted. -/
theorem neverAccepted_of_open {wire bs : Bytes} (h : Frame.Wire wire bs false) :
    NeverAccepted wire := by
  intro y ending arriving hreceives
  obtain ⟨front, cause, -, hflow⟩ := h.cut (List.prefix_refl wire) nofun ending
  have hdelivers := hreceives.delivers
  rw [hflow] at hdelivers
  refine ⟨fun s hs => ?_, fun {β κ} _ _ stored target n hn => ?_⟩
  · unfold readSignature at hs
    dsimp only at hs
    split at hs
    · cases hs
    · next hrun =>
      exact Pipe.not_ok_of_broken FramedSource.bounded SignatureLoader.orderly
        SignatureLoader.patient hdelivers rfl _ _ _ _ _ hrun
  · exact y.writePatched_ne_ok FramedSource.bounded hdelivers rfl stored target n hn

/-- **A truncated transfer is never taken for a complete one.** Wherever what a phase has written is
cut, the phase at the other end notices that the connection has closed too early: one that reads a
signature always, and one that applies a delta if it would have applied the whole of it. What a phase
has written that did not succeed is never accepted at all. -/
theorem truncated_never_accepted (hb : Source.Bounded σ) (size : Nat) (t : SignatureIndex) {stored : β}
    {basis : Bytes} (hstored : Basis.Shows stored basis) {Taken : κ → Bytes → Bool → Prop}
    (hsink : Sink.Faithful Taken true framePayloadLimit) {target : κ} (ht : Taken target [] false)
    (source : σ) (sink sent : FramedSink) (wire : Bytes)
    (hwire : sent.writer.written.toList = sink.writer.written.toList ++ wire) :
    (∀ totals file, Source.Delivers source ⟨file, .ok ()⟩ →
      x.writeSignature size source sink = (.ok totals, sent) → ∀ cut, cut <+: wire → cut ≠ wire →
        ∀ arriving : FramedSource, arriving.Receives ⟨cut, .ok ()⟩ →
          ∃ cause, y.readSignature arriving = .error (.error (.framing cause))) ∧
    (∀ totals, x.writeDelta t source sink = (.ok totals, sent) → ∀ cut, cut <+: wire → cut ≠ wire →
      ∀ (whole : FramedSource) (rest : Flow Fault), whole.Receives (rest.after wire) →
        (∃ n, (y.writePatched stored whole target).1 = .ok n) →
          ∀ arriving : FramedSource, arriving.Receives ⟨cut, .ok ()⟩ → ∃ cause,
            (y.writePatched stored arriving target).1 = .error (.error (.framing cause))) ∧
    (∀ f, sink.writer.Reliable → sink.finished = false →
      x.writeSignature size source sink = (.error f, sent) ∨
        x.writeDelta t source sink = (.error f, sent) → NeverAccepted wire) := by
  have hcarried : ∀ {bs ended}, FramedSink.Carries sink.writer.written.toList sent bs ended →
      Frame.Wire wire bs ended := fun ⟨_, wire', hw, h⟩ => by
    rw [hwire, List.append_cancel_left_eq] at hw
    exact hw ▸ h
  refine ⟨fun totals file hs h cut hcut hne arriving hreceives => ?_,
    fun totals h cut hcut hne whole rest hwhole hok arriving hreceives => ?_, fun f hw hf h => ?_⟩
  · obtain ⟨s, hconclude, hcarries⟩ := x.carries_of_writeSignature hb hs h
    obtain ⟨front, cause, hfront, hflow⟩ := (hcarried hcarries).cut hcut (fun _ => hne) (.ok ())
    have hdelivers := hreceives.delivers
    rw [hflow] at hdelivers
    exact ⟨cause, y.readSignature_of_broken hfront hconclude hdelivers⟩
  · obtain ⟨delta, hcarries⟩ := x.carries_of_writeDelta hb h
    have hw := hcarried hcarries
    obtain ⟨front, cause, hfront, hflow⟩ := hw.cut hcut (fun _ => hne) (.ok ())
    have hdelivers := hreceives.delivers
    rw [hflow] at hdelivers
    -- the whole delta is accepted
    have hdelta := hwhole.delivers
    rw [hw.whole, if_pos rfl] at hdelta
    have hpatch := y.writePatched_spec hstored hsink hdelta ht
    obtain ⟨n, hn⟩ := hok
    rcases hp : y.writePatched stored whole target with ⟨f | n', target'⟩ <;> rw [hp] at hn hpatch
    · cases hn
    · exact ⟨cause, y.writePatched_of_broken hstored hfront hpatch.1 hdelivers hsink ht⟩
  · rcases h with h | h
    · obtain ⟨bs, hcarries⟩ := x.open_of_writeSignature hb hw hf h
      exact neverAccepted_of_open (hcarried hcarries)
    · obtain ⟨bs, hcarries⟩ := x.open_of_writeDelta hb hw hf h
      exact neverAccepted_of_open (hcarried hcarries)

/-- The signature of two blocks and a delta against it, each without its last byte, and a signature that
is broken off behind the first block because the basis cannot be read to its end. -/
theorem truncated_never_accepted_blocks :
    let x : Exchange :=
      ⟨{ capacity := 16, blockLength := some 64, strongLength := some 4 }, ⟨16, by decide, by decide⟩⟩
    let basis : Bytes := .replicate 64 1 ++ .replicate 64 2
    let signature := x.writeSignature 128 (⟨.ofBytes basis⟩ : RawSource) ({ writer := {} } : FramedSink)
    let delta := x.writeDelta (.ofSignature twoBlocks) (⟨.ofBytes mixedFile⟩ : RawSource)
      ({ writer := {} } : FramedSink)
    let aborted := x.writeSignature 128
      (⟨⟨[.data (basis.take 100), .fault ⟨.timedOut, ""⟩]⟩⟩ : RawSource) ({ writer := {} } : FramedSink)
    (∃ totals, signature.1 = .ok totals) ∧
    (∃ cause, x.readSignature
      ({ reader := .ofBytes signature.2.writer.written.toList.dropLast } : FramedSource) =
        .error (.error (.framing cause))) ∧
    (∃ totals, delta.1 = .ok totals) ∧
    (∃ cause, (x.writePatched (⟨basis.toArray⟩ : StoredBasis)
      ({ reader := .ofBytes delta.2.writer.written.toList.dropLast } : FramedSource)
      (⟨{}⟩ : RawSink)).1 = .error (.error (.framing cause))) ∧
    aborted.1 = .error (.error (.io ⟨.timedOut, ""⟩)) ∧ aborted.2.writer.written.size = 24 ∧
    NeverAccepted aborted.2.writer.written.toList := by
  intro x basis signature delta aborted
  have hsignature : signature.1 = .ok ⟨9, 9, 128, 28⟩ := by decide +kernel
  have hne : signature.2.writer.written.toList.dropLast ≠ signature.2.writer.written.toList := by
    decide +kernel
  have haborted : aborted.1 = .error (.error (.io ⟨.timedOut, ""⟩)) := by decide +kernel
  have hsize : aborted.2.writer.written.size = 24 := by decide +kernel
  have hsigned : x.writeSignature 128 _ _ = signature := rfl
  have hencoded : x.writeDelta _ _ _ = delta := rfl
  have hbroken : x.writeSignature 128 _ _ = aborted := rfl
  clear_value signature delta aborted
  obtain ⟨signed, sent⟩ := signature
  obtain ⟨broken, begun⟩ := aborted
  obtain rfl : signed = _ := hsignature
  obtain rfl : broken = _ := haborted
  have hall (source : RawSource) (sent : FramedSink) := x.truncated_never_accepted x RawSource.bounded
    128 (.ofSignature twoBlocks) (StoredBasis.shows basis) (RawSink.faithful [] framePayloadLimit)
    RawSink.holds_new source { writer := {} } sent sent.writer.written.toList (List.nil_append _).symm
  refine ⟨⟨_, rfl⟩, ?_, ?_⟩
  · exact (hall _ sent).1 _ basis (RawSource.delivers_ofBytes basis) hsigned _ (List.dropLast_prefix _)
      hne _ ⟨rfl, rfl, Reader.flow_ofBytes _⟩
  have hs : twoBlocks.params.check = .ok () := rfl
  obtain ⟨encoded, hwrite, htaken⟩ := x.writeDelta_spec hs Link.framed.faithful
    (RawSource.delivers_ofBytes mixedFile) FramedSink.holds_new
  obtain rfl := hencoded.symm.trans hwrite
  have hwhole : ∃ n, (x.writePatched (⟨basis.toArray⟩ : StoredBasis)
      ({ reader := .ofBytes encoded.writer.written.toList } : FramedSource) (⟨{}⟩ : RawSink)).1 =
        .ok n := by
    have hpatch := x.writePatched_spec (StoredBasis.shows basis) (RawSink.faithful [] framePayloadLimit)
      (Link.framed.delivers htaken (Link.framed_joined encoded)) RawSink.holds_new
    have hnone : firstOffence basis true (twoBlocks.delta mixedFile) = none := by
      rw [(firstOffence_delta hs basis true mixedFile).1 ((within_mixedFile _).mpr (by simp [basis])),
        rebuild_mixedFile]
      simp
    rcases hresult : Exchange.writePatched _ (_ : StoredBasis) (_ : FramedSource) (_ : RawSink)
      with ⟨f | n, target⟩ <;> rw [hresult] at hpatch
    · obtain ⟨-, o, -, -, hfirst, -⟩ := hpatch
      rw [hnone] at hfirst
      cases hfirst
    · exact ⟨n, rfl⟩
  refine ⟨⟨_, rfl⟩, ?_, rfl, hsize, ?_⟩
  · refine (hall _ encoded).2.1 _ hwrite _ (List.dropLast_prefix _) ?_ _ ⟨[], .ok ()⟩ ?_ hwhole _
      ⟨rfl, rfl, Reader.flow_ofBytes _⟩
    · intro hsame
      have hlength := congrArg List.length hsame
      have hpos := List.length_pos_of_ne_nil (FramedSink.written_ne_nil htaken)
      rw [List.length_dropLast] at hlength
      omega
    · exact ⟨rfl, rfl, by rw [Reader.flow_ofBytes, Flow.after, List.append_nil]⟩
  · exact (hall _ begun).2.2 _ ⟨rfl, rfl⟩ rfl (.inl hbroken)

end Exchange

end BlockSync
