import BlockSync.Exchange
import BlockSync.Proofs.Delta.Acceptance
import BlockSync.Proofs.Delta.Encoding
import BlockSync.Proofs.Delta.Meaning
import BlockSync.Proofs.Stream.Link

/-!
# The delta of an exchange

* `Exchange.writeDelta_spec`: the phase that writes a delta never fails, and its sink holds the delta
  of the file;
* `Exchange.writePatched_spec`: the phase that applies a delta writes its file or refuses it for its
  first offence;
* **`Exchange.writePatched_of_writeDelta`**: what becomes of a delta against any signature that is
  applied to any basis.
-/

namespace BlockSync

namespace Exchange

variable {σ κ β : Type} [Source σ] [Sink κ] [Basis β] {Taken : κ → Bytes → Bool → Prop}
  {s : Signature} {file delta basis : Bytes} {stored : β}

/-! ## Writing a delta -/

omit [Source σ] [Sink κ] in
/-- An encoder from which nothing is to come has issued everything. -/
theorem totals_of_settled {b : Bench DeltaEncoder}
    (h : ((DeltaEncoder.outlook s).ahead b []).Settled) :
    ((DeltaEncoder.outlook s).ahead b []).result = b.state.totals := by
  obtain ⟨hnil, -⟩ := h
  have hencoded : (DeltaEncoder.remaining s b.state (b.input.content ++ [])).flatMap
      Instruction.encode = [] := (List.append_eq_nil_iff.mp hnil).2
  have hremaining : DeltaEncoder.remaining s b.state (b.input.content ++ []) = [] := by
    refine List.eq_nil_iff_forall_not_mem.mpr fun i hi => ?_
    have hempty := List.flatMap_eq_nil_iff.mp hencoded i hi
    cases i <;> exact nomatch hempty
  change (DeltaEncoder.remaining s b.state (b.input.content ++ [])).foldl DeltaTotals.add
    b.state.totals = b.state.totals
  rw [hremaining]
  rfl

/-- **The phase that writes the delta of a file never fails.** -/
theorem writeDelta_spec (x : Exchange) (hs : s.params.check = .ok ())
    (hsink : Sink.Faithful Taken true framePayloadLimit) {source : σ}
    (hsource : Source.Delivers source ⟨file, .ok ()⟩) {sink : κ} (hk : Taken sink [] false) :
    ∃ sink', x.writeDelta (.ofSignature s) source sink =
        (.ok ((s.instructions file).foldl DeltaTotals.add .zero), sink') ∧
      Taken sink' (s.delta file) true := by
  have hv := (Params.check_iff _).mp hs
  have hfuture := DeltaEncoder.future_start s file
  have hresult := Pipe.run_spec (DeltaEncoder.lawful s).sound
    (DeltaEncoder.tells_start (s.blockLength_pos hv)) (DeltaEncoder.lawful s).prompt hsink
    (fun hc => nomatch hc) hsource hk x.pipe (DeltaEncoder.outputBound (Source.available source))
    (DeltaEncoder.length_future_le hv)
  rw [hfuture] at hresult
  simp only [writeDelta]
  rcases hrun : x.pipe.run _ source (DeltaEncoder.start (.ofSignature s)) sink
    with ⟨f | totals, run⟩ <;> rw [hrun] at hresult
  · obtain ⟨⟨e, -, he⟩ | hf, -⟩ := hresult
    · cases he
    · exact hf.elim
  · obtain ⟨-, -, -, hsettled, htotals, htaken⟩ := hresult
    refine ⟨run.sink, ?_, htaken rfl⟩
    rw [totals_of_settled hsettled] at htotals
    simp only [Except.map, htotals]

/-! ## Applying a delta -/

/-- How the phase that applies a delta ends, and what its sink holds then. -/
def PatchVerdict (Taken : κ → Bytes → Bool → Prop) (basis : Bytes) (verify : Bool) (delta : Bytes) :
    Except Failure Nat × κ → Prop
  | (.ok n, sink) => firstOffence basis verify delta = none ∧
      Taken sink (readDelta basis delta).output true ∧ n = (readDelta basis delta).output.length
  | (.error f, sink) => ∃ (e : TransferError) (o : Offence), f = .error e ∧ e.offence = some o ∧
      firstOffence basis verify delta = some o ∧
      ∃ taken, taken <+: (readDelta basis delta).output ∧ Taken sink taken false

/-- **The phase that applies a delta writes its file, or refuses it for its first offence.** -/
theorem writePatched_spec (x : Exchange) (hb : Basis.Shows stored basis)
    (hsink : Sink.Faithful Taken true framePayloadLimit) {source : σ}
    (hsource : Source.Delivers source ⟨delta, .ok ()⟩) {sink : κ} (hk : Taken sink [] false) :
    PatchVerdict Taken basis x.settings.verify delta (x.writePatched stored source sink) := by
  obtain ⟨Holds, hb, hstored⟩ := hb
  obtain ⟨p, hp, htells, hbound, hfuture⟩ := Patcher.start_spec hb hstored x.settings.verify
  have hresult := Pipe.run_spec (Patcher.sound hb) htells Patcher.prompt hsink
    (fun hc => nomatch hc) hsource hk x.pipe (p.outputBound (Source.available source)) fun havail => by
      rw [hfuture, hbound]
      exact Nat.le_trans (length_readDelta_le basis delta) (Nat.mul_le_mul_left _ havail)
  rw [hfuture] at hresult
  have hv := Patcher.verdict_of_result hresult
  simp only [writePatched, hp]
  rcases hrun : x.pipe.run _ source p sink with ⟨f | totals, run⟩ <;> rw [hrun] at hv <;> exact hv

/-- What is wrong with the delta of a file: at most that it copies what the basis does not have, or
that something else is built than the file. -/
theorem firstOffence_delta (hs : s.params.check = .ok ()) (basis : Bytes) (verify : Bool)
    (file : Bytes) :
    ((∀ i ∈ s.body file, i.Within basis.length) → firstOffence basis verify (s.delta file) =
      if verify = true ∧ Blake3.hash (rebuild basis (s.body file)) ≠ Blake3.hash file then
        some .checksumMismatch else none) ∧
    ((¬ ∀ i ∈ s.body file, i.Within basis.length) →
      firstOffence basis verify (s.delta file) = some .copyOutOfBounds) := by
  have hv := (Params.check_iff _).mp hs
  refine ⟨fun h => ?_, fun h => ?_⟩
  · have hiff : (verify && Blake3.hash file != Blake3.hash (rebuild basis (s.body file))) = true ↔
        verify = true ∧ Blake3.hash (rebuild basis (s.body file)) ≠ Blake3.hash file := by
      rw [Bool.and_eq_true, bne_iff_ne, ne_comm]
    simp only [firstOffence, readDelta_of_within hv h, Ending.offence, hiff, if_true]
  · obtain ⟨offset, length, he⟩ := readDelta_of_outside hv h
    simp only [firstOffence, he, Ending.offence, TransferError.offence]

/-- **Whatever the signature and the basis, the delta of a file is never refused as corrupted.** It is
refused if it copies what the basis does not have, or if digests are compared and that of what was
built differs from that of the file; otherwise as many bytes are written as the file has. -/
theorem writePatched_of_writeDelta {σ' κ' : Type} [Source σ'] [Sink κ'] (link : Link κ σ)
    (x y : Exchange) (hs : s.params.check = .ok ()) {source : σ'}
    (hsource : Source.Delivers source ⟨file, .ok ()⟩) {sink : κ} (hk : link.Taken sink [] false)
    (hb : Basis.Shows stored basis) {Taken : κ' → Bytes → Bool → Prop}
    (hsink : Sink.Faithful Taken true framePayloadLimit) {target : κ'} (ht : Taken target [] false) :
    ∃ totals sent, x.writeDelta (.ofSignature s) source sink = (.ok totals, sent) ∧
      ∀ arriving : σ, link.Joined sent arriving →
        let patched := y.writePatched stored arriving target
        let built := rebuild basis (s.body file)
        let Inside := ∀ i ∈ s.body file, i.Within basis.length
        ((∃ n, patched.1 = .ok n) ↔
          Inside ∧ (y.settings.verify = true → Blake3.hash built = Blake3.hash file)) ∧
        (∀ n, patched.1 = .ok n →
          n = file.length ∧ built.length = file.length ∧ Taken patched.2 built true) ∧
        (∀ f, patched.1 = .error f → ∃ e : TransferError, f = .error e ∧
          (¬ Inside ∧ e.offence = some .copyOutOfBounds ∨
            Inside ∧ y.settings.verify = true ∧ e.offence = some .checksumMismatch)) := by
  have hv := (Params.check_iff _).mp hs
  obtain ⟨sent, hwrite, hsent⟩ := x.writeDelta_spec hs link.faithful hsource hk
  refine ⟨_, sent, hwrite, fun arriving hjoined => ?_⟩
  have hpatch := y.writePatched_spec hb hsink (link.delivers hsent hjoined) ht
  obtain ⟨hinside, houtside⟩ := firstOffence_delta hs basis y.settings.verify file
  intro patched built Inside
  change PatchVerdict Taken basis y.settings.verify (s.delta file) patched at hpatch
  rcases patched with ⟨f | n, target'⟩
  · obtain ⟨e, o, rfl, heo, hfirst, -⟩ := hpatch
    by_cases hi : Inside
    · rw [hinside hi] at hfirst
      split at hfirst
      · next hdiffer =>
        obtain rfl : Offence.checksumMismatch = o := Option.some.inj hfirst
        refine ⟨⟨(fun ⟨_, h⟩ => nomatch h), fun h => absurd (h.2 hdiffer.1) hdiffer.2⟩,
          (fun _ h => nomatch h), fun f hf => ?_⟩
        obtain rfl := Except.error.inj hf
        exact ⟨e, rfl, .inr ⟨hi, hdiffer.1, heo⟩⟩
      · cases hfirst
    · rw [houtside hi] at hfirst
      obtain rfl : Offence.copyOutOfBounds = o := Option.some.inj hfirst
      refine ⟨⟨(fun ⟨_, h⟩ => nomatch h), fun h => absurd h.1 hi⟩, (fun _ h => nomatch h),
        fun f hf => ?_⟩
      obtain rfl := Except.error.inj hf
      exact ⟨e, rfl, .inl ⟨hi, heo⟩⟩
  · obtain ⟨hnone, htaken, hn⟩ := hpatch
    have hi : Inside := by
      by_contra h
      rw [houtside h] at hnone
      cases hnone
    rw [hinside hi] at hnone
    rw [readDelta_of_within hv hi] at htaken hn
    have hlen : built.length = file.length := by
      rw [length_rebuild hi, s.builtLength_body hv]
    refine ⟨⟨fun _ => ⟨hi, fun hverify => ?_⟩, fun _ => ⟨n, rfl⟩⟩, fun m hm => ?_,
      (fun _ h => nomatch h)⟩
    · by_contra hdiffer
      rw [if_pos ⟨hverify, hdiffer⟩] at hnone
      cases hnone
    · obtain rfl := Except.ok.inj hm
      exact ⟨hn.trans hlen, hlen, htaken⟩

/-- A delta that copies both blocks of its signature: applied to them, to as many other bytes with and
without a comparison of digests, and to fewer bytes. -/
theorem writePatched_of_writeDelta_foreign :
    let sent := (standard.writeDelta (.ofSignature twoBlocks) (⟨.ofBytes mixedFile⟩ : RawSource)
      ({ writer := {} } : FramedSink)).2
    let patched (verify : Bool) (basis : Bytes) :=
      (⟨{ verify := verify }, .standard⟩ : Exchange).writePatched (⟨basis.toArray⟩ : StoredBasis)
        ({ reader := .ofBytes sent.writer.written.toList } : FramedSource) (⟨{}⟩ : RawSink)
    let wrote (verify : Bool) (basis file : Bytes) := ∃ sink,
      patched verify basis = (.ok 196, sink) ∧ sink.writer.written.toList = file
    let refused (basis : Bytes) (o : Offence) := ∃ (e : TransferError) (sink : RawSink),
      patched true basis = (.error (.error e), sink) ∧ e.offence = some o
    wrote true (.replicate 64 1 ++ .replicate 64 2) mixedFile ∧
    wrote false (.replicate 128 3) (.replicate 64 3 ++ 9 :: (.replicate 128 3 ++ [7, 7, 7])) ∧
    refused (.replicate 128 3) .checksumMismatch ∧ refused (.replicate 127 1) .copyOutOfBounds := by
  intro sent patched wrote refused
  have hpatched (verify : Bool) (basis : Bytes) := writePatched_of_writeDelta Link.framed standard
    ⟨{ verify := verify }, .standard⟩ (s := twoBlocks) rfl (RawSource.delivers_ofBytes mixedFile)
    FramedSink.holds_new (StoredBasis.shows basis) (RawSink.faithful [] framePayloadLimit)
    RawSink.holds_new
  have hwrote (verify : Bool) (basis : Bytes) (hb : 128 ≤ basis.length) (hd : verify = true →
      Blake3.hash (rebuild basis (twoBlocks.body mixedFile)) = Blake3.hash mixedFile) :
      wrote verify basis (rebuild basis (twoBlocks.body mixedFile)) := by
    obtain ⟨totals, sent', hwrite, hall⟩ := hpatched verify basis
    obtain rfl : sent = sent' := congrArg Prod.snd hwrite
    obtain ⟨hiff, hbuilt, -⟩ := hall _ (Link.framed_joined sent)
    rcases hresult : Exchange.writePatched _ (_ : StoredBasis) (_ : FramedSource) (_ : RawSink)
      with ⟨result, sink⟩
    rw [hresult] at hiff hbuilt
    obtain ⟨n, rfl⟩ : ∃ n, result = .ok n := hiff.mpr ⟨(within_mixedFile _).mpr hb, hd⟩
    obtain ⟨hn, -, -, hwritten⟩ := hbuilt n rfl
    rw [hn, show mixedFile.length = 196 from by decide +kernel] at hresult
    exact ⟨sink, hresult, hwritten⟩
  have hrefused (basis : Bytes) (hd : 128 ≤ basis.length →
      Blake3.hash (rebuild basis (twoBlocks.body mixedFile)) ≠ Blake3.hash mixedFile) :
      refused basis (if 128 ≤ basis.length then .checksumMismatch else .copyOutOfBounds) := by
    obtain ⟨totals, sent', hwrite, hall⟩ := hpatched true basis
    obtain rfl : sent = sent' := congrArg Prod.snd hwrite
    obtain ⟨hiff, -, herror⟩ := hall _ (Link.framed_joined sent)
    rw [within_mixedFile] at hiff
    rcases hresult : Exchange.writePatched _ (_ : StoredBasis) (_ : FramedSource) (_ : RawSink)
      with ⟨f | n, sink⟩ <;> rw [hresult] at hiff herror
    · obtain ⟨e, rfl, ⟨houtside, he⟩ | ⟨hb, -, he⟩⟩ := herror f rfl
      · exact ⟨e, sink, hresult, by rwa [if_neg (mt (within_mixedFile _).mpr houtside)]⟩
      · exact ⟨e, sink, hresult, by rwa [if_pos ((within_mixedFile _).mp hb)]⟩
    · obtain ⟨hb, hsame⟩ := hiff.mp ⟨n, rfl⟩
      exact absurd (hsame rfl) (hd hb)
  have hother : rebuild (.replicate 128 3) (twoBlocks.body mixedFile) =
      .replicate 64 3 ++ 9 :: (.replicate 128 3 ++ [7, 7, 7]) := by
    rw [body_mixedFile]; decide +kernel
  refine ⟨?_, ?_, ?_, ?_⟩
  · have h := hwrote true (.replicate 64 1 ++ .replicate 64 2) (by simp)
      fun _ => congrArg Blake3.hash rebuild_mixedFile
    rwa [rebuild_mixedFile] at h
  · have h := hwrote false (.replicate 128 3) (by simp) nofun
    rwa [hother] at h
  · have h := hrefused (.replicate 128 3) fun _ => by
      rw [hother]
      decide +kernel
    simpa using h
  · have h := hrefused (.replicate 127 1) fun h => absurd h (by simp)
    simpa using h

end Exchange

end BlockSync
