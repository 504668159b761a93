import BlockSync.Proofs.Exchange.Delta
import BlockSync.Proofs.Exchange.Signature

/-!
# Whole exchanges

* `Exchange.params_spec`: accepted settings have parameters for files of any size;
* `Exchange.writeSignature_spec`, `Exchange.readSignature_spec`: the phases that write and read a
  signature;
* **`Exchange.writePatched_of_phases`**: four phases after each other turn the basis into the new
  file, whatever the capacities, the kinds of sinks and sources, and the ways in which streams are
  split.
-/

namespace BlockSync

namespace Exchange

/-! ## Parameters -/

theorem checks_of_ofSettings {settings : Settings} {x : Exchange} (h : ofSettings settings = .ok x) :
    x.settings = settings ∧ settings.blockLength.forM checkBlockLength = .ok () ∧
      settings.strongLength.forM checkStrongLength = .ok () := by
  unfold ofSettings at h
  cases hp : Pipe.ofCapacity settings.capacity with
  | error e => simp [hp, bind, Except.bind] at h
  | ok pipe =>
    cases hb : settings.blockLength.forM checkBlockLength with
    | error e => simp [hp, hb, bind, Except.bind] at h
    | ok =>
      cases hs : settings.strongLength.forM checkStrongLength with
      | error e => simp [hp, hb, hs, bind, Except.bind] at h
      | ok =>
        simp only [hp, hb, hs, bind, Except.bind, pure, Except.pure, Except.ok.injEq] at h
        exact ⟨by rw [← h], rfl, rfl⟩

/-- A length that is set is in its range, and so is one that is recommended. -/
theorem check_getD {check : UInt32 → Except TransferError Unit} {given : Option UInt32} {n : UInt32}
    (h : given.forM check = .ok ()) (hn : check n = .ok ()) : check (given.getD n) = .ok () := by
  cases given with
  | none => exact hn
  | some m => exact h

/-- **Accepted settings have parameters for files of any size.** -/
theorem params_spec {settings : Settings} {x : Exchange} (h : ofSettings settings = .ok x)
    (size : Nat) : ∃ p, x.settings.params size = .ok p ∧ p.Valid := by
  obtain ⟨rfl, hb, hs⟩ := checks_of_ofSettings h
  have hrecommended := Params.forSize_valid size
  have hb' := check_getD hb ((checkBlockLength_iff (Params.forSize size).blockLength).mpr
    ⟨UInt32.le_iff_toNat_le.mpr hrecommended.le_blockLength,
      UInt32.le_iff_toNat_le.mpr hrecommended.blockLength_le⟩)
  have hs' := check_getD hs ((checkStrongLength_iff (Params.forSize size).strongLength).mpr
    ⟨UInt32.le_iff_toNat_le.mpr hrecommended.le_strongLength,
      UInt32.le_iff_toNat_le.mpr hrecommended.strongLength_le⟩)
  let p : Params := ⟨x.settings.blockLength.getD (Params.forSize size).blockLength,
    x.settings.strongLength.getD (Params.forSize size).strongLength⟩
  have hv : p.Valid := (Params.check_iff p).mp (by
    simp only [Params.check, p, hb', hs']
    rfl)
  exact ⟨p, (Params.checked_iff ..).mpr ⟨rfl, hv⟩, hv⟩

variable {σ κ : Type} [Source σ] [Sink κ] {Taken : κ → Bytes → Bool → Prop} {basis : Bytes}

/-! ## Signatures -/

/-- **The phase that writes the signature of a basis never fails.** -/
theorem writeSignature_spec (x : Exchange) {size : Nat} {p : Params}
    (hp : x.settings.params size = .ok p) (hv : p.Valid) {s : Signature}
    (hs : Signature.ofBytes p basis = .ok s) (hsink : Sink.Faithful Taken true framePayloadLimit)
    {source : σ} (hsource : Source.Delivers source ⟨basis, .ok ()⟩) {sink : κ}
    (hk : Taken sink [] false) :
    ∃ totals sink', x.writeSignature size source sink = (.ok totals, sink') ∧
      Taken sink' s.encode true := by
  have hlen : s.encode.length ≤ SignatureEmitter.outputBound basis.length := by
    rw [Signature.encode_ofBytes hs]
    exact SignatureEmitter.length_records_le hv basis
  have havail := hsource.available
  have hbound : SignatureEmitter.outputBound basis.length ≤
      SignatureEmitter.outputBound (Source.available source) :=
    Nat.add_le_add_left (Nat.mul_le_mul_left _ (Nat.add_le_add_right havail 1)) _
  have hlimit : Pipe.iterationsFor basis.length s.encode.length ≤ Pipe.iterationsFor
      (Source.available source) (SignatureEmitter.outputBound (Source.available source)) :=
    Nat.add_le_add_right (Nat.add_le_add havail (hlen.trans hbound)) 2
  obtain ⟨e, he, totals, run, hrun, htaken⟩ :=
    SignatureEmitter.run_spec hv hs hsink hsource hk x.pipe hlimit
  have hstart : (x.settings.params size >>= SignatureEmitter.start) = .ok e := by
    rw [hp]
    exact he
  refine ⟨totals, run.sink, ?_, htaken⟩
  simp only [writeSignature, hstart, hrun]

/-- **The phase that reads a signature gives what a loader makes of its stream.** -/
theorem readSignature_spec (x : Exchange) {bs : Bytes} {source : σ}
    (hsource : Source.Delivers source ⟨bs, .ok ()⟩) :
    x.readSignature source = (SignatureLoader.start.conclude bs).mapError .error := by
  have hresult := SignatureLoader.run_result hsource x.pipe
  simp only [readSignature]
  rcases hrun : x.pipe.run _ source SignatureLoader.start NoSink.mk with ⟨f | totals, run⟩ <;>
    rw [hrun] at hresult
  · obtain ⟨⟨e, -, he⟩ | ⟨e, he, rfl⟩, -⟩ := hresult
    · cases he
    · simp only
      rw [he]
      rfl
  · rw [SignatureLoader.result_of_ok hresult]

/-! ## All phases -/

/-- **A file is brought up to date.** With whatever settings are accepted, the signature of a basis is
written and read, the delta of a file against it is written, and applied to the basis it makes the
file; as long as the blocks of the basis can be counted and there is no false match. -/
theorem writePatched_of_phases {σ₁ σ₂ κ₁ τ₁ κ₂ τ₂ κ β : Type} [Source σ₁] [Source σ₂] [Sink κ₁]
    [Source τ₁] [Sink κ₂] [Source τ₂] [Sink κ] [Basis β] (signatureLink : Link κ₁ τ₁)
    (deltaLink : Link κ₂ τ₂) {settings : Settings} {x : Exchange} (hx : ofSettings settings = .ok x)
    (reader sender patcher : Exchange) (size : Nat) {basis file : Bytes} {basisSource : σ₁}
    (hbasis : Source.Delivers basisSource ⟨basis, .ok ()⟩) {fileSource : σ₂}
    (hfile : Source.Delivers fileSource ⟨file, .ok ()⟩) {stored : β}
    (hstored : Basis.Shows stored basis) {signatureSink : κ₁}
    (hk₁ : signatureLink.Taken signatureSink [] false) {deltaSink : κ₂}
    (hk₂ : deltaLink.Taken deltaSink [] false) {Taken : κ → Bytes → Bool → Prop}
    (hsink : Sink.Faithful Taken true framePayloadLimit) {target : κ} (ht : Taken target [] false) :
    ∃ p, x.settings.params size = .ok p ∧
      ((blocksOf p.blockLength.toNat basis).length ≤ 2 ^ 32 → NoFalseMatch p basis file →
        ∃ t₁ sent₁, x.writeSignature size basisSource signatureSink = (.ok t₁, sent₁) ∧
          ∀ arriving₁, signatureLink.Joined sent₁ arriving₁ →
            ∃ s, reader.readSignature arriving₁ = .ok s ∧
              ∃ t₂ sent₂, sender.writeDelta (.ofSignature s) fileSource deltaSink = (.ok t₂, sent₂) ∧
                ∀ arriving₂, deltaLink.Joined sent₂ arriving₂ →
                  ∃ patched, patcher.writePatched stored arriving₂ target =
                    (.ok file.length, patched) ∧ Taken patched file true) := by
  obtain ⟨p, hp, hv⟩ := params_spec hx size
  refine ⟨p, hp, fun hcount hm => ?_⟩
  obtain ⟨s, hs, rfl, -⟩ := Signature.ofBytes_spec hv basis
  have hcheck := (Params.check_iff _).mpr hv
  obtain ⟨t₁, sent₁, hwrite₁, hsent₁⟩ :=
    x.writeSignature_spec hp hv hs signatureLink.faithful hbasis hk₁
  refine ⟨t₁, sent₁, hwrite₁, fun arriving₁ hjoined₁ => ⟨s, ?_, ?_⟩⟩
  · rw [reader.readSignature_spec (signatureLink.delivers hsent₁ hjoined₁),
      SignatureLoader.conclude_encode hv hs]
    rfl
  · obtain ⟨sent₂, hwrite₂, hsent₂⟩ := sender.writeDelta_spec hcheck deltaLink.faithful hfile hk₂
    refine ⟨_, sent₂, hwrite₂, fun arriving₂ hjoined₂ => ?_⟩
    -- the delta is read to its end, and what it builds is the file
    have htruthful := Signature.truthful_ofBytes hv hs hcount hm
    obtain ⟨hbuilt, hwithin⟩ := s.rebuild_body hv htruthful
    have hread := readDelta_of_within hv hwithin
    have hnone := (firstOffence_delta hcheck basis patcher.settings.verify file).1 hwithin
    rw [hbuilt] at hread hnone
    rw [if_neg (fun hc => hc.2 rfl)] at hnone
    have hpatch := patcher.writePatched_spec hstored hsink
      (deltaLink.delivers hsent₂ hjoined₂) ht
    rcases hrun : patcher.writePatched stored arriving₂ target with ⟨f | n, patched⟩ <;>
      rw [hrun] at hpatch
    · obtain ⟨e, o, -, -, hsome, -⟩ := hpatch
      rw [hnone] at hsome
      cases hsome
    · obtain ⟨-, htaken, hn⟩ := hpatch
      rw [hread] at htaken hn
      exact ⟨patched, by rw [hn], htaken⟩

/-- A file of one short block that has not changed. -/
theorem writePatched_of_phases_block :
    let settings : Settings := { blockLength := some 64, strongLength := some 4 }
    let x : Exchange := ⟨settings, .standard⟩
    let file : Bytes := [1, 2, 3]
    let sent₁ := (x.writeSignature 3 (⟨.ofBytes file⟩ : RawSource) (⟨{}⟩ : RawSink)).2
    ∃ s, x.readSignature (⟨.ofBytes sent₁.writer.written.toList⟩ : RawSource) = .ok s ∧
      let sent₂ := (x.writeDelta (.ofSignature s) (⟨.ofBytes file⟩ : RawSource)
        ({ writer := {} } : FramedSink)).2
      let patched := x.writePatched (⟨file.toArray⟩ : StoredBasis)
        ({ reader := .ofBytes sent₂.writer.written.toList } : FramedSource) (⟨{}⟩ : RawSink)
      patched.1 = .ok 3 ∧ patched.2.writer.written.toList = file := by
  intro settings x file sent₁
  have hx : ofSettings settings = .ok x := rfl
  obtain ⟨p, hp, hphases⟩ := writePatched_of_phases Link.raw Link.framed hx x x x 3
    (RawSource.delivers_ofBytes file) (RawSource.delivers_ofBytes file) (StoredBasis.shows file)
    RawSink.holds_new FramedSink.holds_new (RawSink.faithful [] framePayloadLimit) RawSink.holds_new
  obtain rfl : (⟨64, 4⟩ : Params) = p := Except.ok.inj hp
  have hblocks : blocksOf 64 file = [file] := blocksOf_of_le (by decide) (by decide)
  have hm : NoFalseMatch ⟨64, 4⟩ file file := by
    intro bs block hw hblock hweak _
    change block ∈ blocksOf 64 file at hblock
    rw [hblocks, List.mem_singleton] at hblock
    subst hblock
    rcases hw with ⟨hl, hinfix⟩ | ⟨hne, -, hsuffix⟩
    · have hle := hinfix.length_le
      rw [hl] at hle
      exact absurd hle (by decide)
    · rcases (List.mem_tails ..).mpr hsuffix with _ | ⟨_, _ | ⟨_, _ | ⟨_, _ | ⟨_, h⟩⟩⟩⟩
      · rfl
      · exact absurd hweak (by decide)
      · exact absurd hweak (by decide)
      · exact absurd rfl hne
      · cases h
  have hcount : (blocksOf 64 file).length ≤ 2 ^ 32 := by
    rw [hblocks]
    decide
  obtain ⟨t₁, sent, hwrite₁, hread⟩ := hphases hcount hm
  obtain rfl : sent₁ = sent := congrArg Prod.snd hwrite₁
  obtain ⟨s, hs, t₂, sent₂, hwrite₂, hpatch⟩ := hread _ (Link.raw_joined sent₁)
  obtain ⟨target, hpatched, -, hwritten⟩ := hpatch _ (Link.framed_joined sent₂)
  refine ⟨s, hs, ?_⟩
  simp only [hwrite₂]
  rw [hpatched]
  exact ⟨rfl, hwritten⟩

end Exchange

end BlockSync
