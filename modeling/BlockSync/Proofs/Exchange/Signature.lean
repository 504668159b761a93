import BlockSync.Proofs.Signature.Emitting
import BlockSync.Proofs.Signature.Loading
import BlockSync.Proofs.Stream.Link

/-!
# A signature on its way

* `SignatureEmitter.run_spec`: a run that writes the signature of a basis;
* `SignatureLoader.run_spec`: a run that reads what was written;
* **`Signature.loaded_of_emitted`**: whatever the capacities, the kind of transport and the sizes of the
  reads, what is read is the signature of the basis.
-/

namespace BlockSync

variable {σ τ κ : Type} [Source σ] [Source τ] [Sink κ] {basis : Bytes} {p : Params} {s : Signature}

/-- A run that may take enough iterations writes the signature of its basis. -/
theorem SignatureEmitter.run_spec (hp : p.Valid) (hs : Signature.ofBytes p basis = .ok s)
    {Taken : κ → Bytes → Bool → Prop} (hsink : Sink.Faithful Taken true framePayloadLimit)
    {source : σ} (hsource : Source.Delivers source ⟨basis, .ok ()⟩) {sink : κ}
    (hk : Taken sink [] false) (pipe : Pipe) {limit : Nat}
    (hl : Pipe.iterationsFor basis.length s.encode.length ≤ limit) :
    ∃ e, start p = .ok e ∧ ∃ totals run, pipe.run limit source e sink = (.ok totals, run) ∧
      Taken run.sink s.encode true := by
  obtain ⟨e, he, htells, hfuture⟩ := start_spec hp
  have hencode : p.header ++ records p basis = s.encode := (Signature.encode_ofBytes hs).symm
  have hfuture := hfuture basis
  rw [hencode] at hfuture
  have hl' : Pipe.iterationsFor basis.length ((outlook p).future e basis).output.length ≤ limit := by
    rw [hfuture]
    exact hl
  have hresult := pipe.run_of_le (lawful p).sound htells (lawful p).prompt hsink (fun hc => nomatch hc)
    hsource hk hl'
  rw [hfuture] at hresult
  refine ⟨e, he, ?_⟩
  rcases hrun : pipe.run limit source e sink with ⟨f | totals, run⟩ <;> rw [hrun] at hresult
  · rcases hresult.1 with ⟨_, -, hc⟩ | hc
    · cases hc
    · exact hc.elim
  · exact ⟨totals, run, rfl, hresult.2.2.2.2.2 rfl⟩

/-- A run that may take enough iterations reads the signature that it is given. -/
theorem SignatureLoader.run_spec {stream : Bytes} (hs : start.conclude stream = .ok s) {source : σ}
    (hsource : Source.Delivers source ⟨stream, .ok ()⟩) (pipe : Pipe) {limit : Nat}
    (hl : Pipe.iterationsFor stream.length 0 ≤ limit) :
    ∃ totals run, pipe.run limit source start NoSink.mk = (.ok totals, run) ∧
      run.bench.state.result = .ok s := by
  have hresult := pipe.run_of_le sound tells_start prompt (NoSink.faithful _) (fun _ _ => id) hsource
    NoSink.holds_new hl
  rcases hrun : pipe.run limit source start NoSink.mk with ⟨f | totals, run⟩ <;> rw [hrun] at hresult
  · rcases hresult.1 with ⟨_, -, hc⟩ | ⟨e, hc, -⟩
    · cases hc
    · rw [hs] at hc
      cases hc
  · exact ⟨totals, run, rfl, (result_of_ok hresult).symm.trans hs⟩

namespace Signature

/-- **A signature arrives as it was made.** For all parameters in their ranges a run that writes the
signature of a basis never fails, and what it writes has twelve bytes of header and one record for each
block; and a run that reads this from the other end never fails either, and gives the signature that is
made of the basis when all of it is at hand. Neither the capacities matter, nor the kind of transport,
nor the sizes in which anything is read. -/
theorem loaded_of_emitted (link : Link κ τ) (hp : p.check = .ok ()) {source : σ}
    (hsource : Source.Delivers source ⟨basis, .ok ()⟩) {sink : κ} (hk : link.Taken sink [] false)
    (emitting loading : Pipe) :
    ∃ s e, ofBytes p basis = .ok s ∧ SignatureEmitter.start p = .ok e ∧
      s.encode.length = 12 + (basis.length + p.blockLength.toNat - 1) / p.blockLength.toNat *
        (4 + p.strongLength.toNat) ∧
      ∀ limit, Pipe.iterationsFor basis.length s.encode.length ≤ limit →
        ∃ totals sent, emitting.run limit source e sink = (.ok totals, sent) ∧
          link.Taken sent.sink s.encode true ∧
          ∀ arriving, link.Joined sent.sink arriving →
            ∀ limit', Pipe.iterationsFor s.encode.length 0 ≤ limit' →
              ∃ totals' loaded,
                loading.run limit' arriving SignatureLoader.start NoSink.mk = (.ok totals', loaded) ∧
                loaded.bench.state.result = .ok s := by
  have hv := (Params.check_iff p).mp hp
  obtain ⟨s, hs, -, -⟩ := ofBytes_spec hv basis
  obtain ⟨e, he, -⟩ := SignatureEmitter.start_spec hv
  refine ⟨s, e, hs, he, length_encode_ofBytes hv hs, ?_⟩
  intro limit hl
  obtain ⟨e', he', totals, sent, hrun, htaken⟩ :=
    SignatureEmitter.run_spec hv hs link.faithful hsource hk emitting hl
  obtain rfl : e = e' := Except.ok.inj (he.symm.trans he')
  refine ⟨totals, sent, hrun, htaken, ?_⟩
  intro arriving hjoined limit' hl'
  exact SignatureLoader.run_spec (SignatureLoader.conclude_encode hv hs)
    (link.delivers htaken hjoined) loading hl'

/-- The signature of a short file, byte by byte into frames. -/
theorem loaded_of_emitted_block :
    let emitting : Pipe := ⟨1, by decide, by decide⟩
    ∃ s e, ofBytes ⟨64, 4⟩ [1, 2, 3] = .ok s ∧ SignatureEmitter.start ⟨64, 4⟩ = .ok e ∧
      s.encode.length = 20 ∧
      let sent := (emitting.run 25 (⟨.ofBytes [1, 2, 3]⟩ : RawSource) e
        ({ writer := {} } : FramedSink)).2.sink
      ∃ totals loaded, Pipe.standard.run 22
          ({ reader := .ofBytes sent.writer.written.toList } : FramedSource) SignatureLoader.start
          NoSink.mk = (.ok totals, loaded) ∧ loaded.bench.state.result = .ok s := by
  intro emitting
  obtain ⟨s, e, hs, he, hlength, hruns⟩ := loaded_of_emitted (p := ⟨64, 4⟩) Link.framed rfl
    (RawSource.delivers_ofBytes [1, 2, 3]) FramedSink.holds_new emitting Pipe.standard
  have hlen : s.encode.length = 20 := hlength
  have hlimit : Pipe.iterationsFor [1, 2, 3].length s.encode.length ≤ 25 := by
    rw [hlen]
    decide
  obtain ⟨totals, sent, hrun, -, hload⟩ := hruns 25 hlimit
  refine ⟨s, e, hs, he, hlen, ?_⟩
  rw [hrun]
  exact hload _ (Link.framed_joined sent.sink) 22 (by rw [hlen]; decide)

end Signature

end BlockSync
