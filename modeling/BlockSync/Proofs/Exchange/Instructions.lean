import BlockSync.Proofs.Delta.Completeness
import BlockSync.Proofs.Delta.NormalForm
import BlockSync.Proofs.Exchange.Delta

/-!
# The instructions that an exchange writes

* `DeltaEncoder.issued_of_done`: what an encoder that is done has put out and counted, whatever the
  order of its steps;
* **`Exchange.writeDelta_normalForm`**: the instructions that are written are laid along the file and
  have a normal form;
* **`Exchange.writeDelta_complete`**: whatever the file shares with the basis, block by block, is
  copied.
-/

namespace BlockSync

/-- Whatever the order of steps, an encoder that is done has put out the delta of the file and has
counted its instructions. -/
theorem DeltaEncoder.issued_of_done {s : Signature} (hs : s.params.Valid) {file taken : Bytes}
    {b : Bench DeltaEncoder} (h : Schedule (start (.ofSignature s)) file taken (.ok .done) b) :
    taken ++ b.output.content = s.delta file ∧
      b.state.totals = (s.instructions file).foldl DeltaTotals.add .zero := by
  have ht := tells_start (Signature.blockLength_pos hs)
  obtain ⟨-, hsettled⟩ := Schedule.settled_of_done (lawful s).sound ht h
  have hfuture := Schedule.future_of_done (lawful s).sound ht h
  rw [future_start] at hfuture
  have hout := congrArg Future.output hfuture
  have hresult := congrArg Future.result hfuture
  simp only [Future.after] at hout hresult
  rw [hsettled.1, List.append_nil] at hout
  exact ⟨hout.symm, (Exchange.totals_of_settled hsettled).symm.trans hresult.symm⟩

namespace Exchange

variable {σ κ : Type} [Source σ] [Sink κ] {Taken : κ → Bytes → Bool → Prop} {s : Signature}
  {file : Bytes}

omit [Source σ] [Sink κ] in
/-- What the standard exchange writes consists of the instructions of the file. -/
theorem consistsOf_of_writeDelta (hs : s.params.check = .ok ()) {totals : DeltaTotals} {sent : RawSink}
    (h : standard.writeDelta (.ofSignature s) (⟨.ofBytes file⟩ : RawSource) (⟨{}⟩ : RawSink) =
      (.ok totals, sent)) : ConsistsOf sent.writer.written.toList (s.instructions file) := by
  obtain ⟨sent', hwrite, hsent⟩ := standard.writeDelta_spec hs (RawSink.faithful [] framePayloadLimit)
    (RawSource.delivers_ofBytes file) RawSink.holds_new
  obtain rfl : sent = sent' := congrArg Prod.snd (h.symm.trans hwrite)
  rw [show sent.writer.written.toList = s.delta file from hsent.2]
  exact s.consistsOf_delta ((Params.check_iff _).mp hs) file

/-- **Whatever the signature and the file are, the instructions that are written have a normal form.**
The byte string that is written, by this exchange or in any other order of steps, consists of one
sequence of instructions only. It is closed at the end and nowhere else, nothing is copied or inserted
without length, copies that could be one are one, only a full insertion is followed by another, and
from the first to the last the instructions are laid along the file. -/
theorem writeDelta_normalForm (x : Exchange) (hs : s.params.check = .ok ())
    (hsink : Sink.Faithful Taken true framePayloadLimit) {source : σ}
    (hsource : Source.Delivers source ⟨file, .ok ()⟩) {sink : κ} (hk : Taken sink [] false) :
    ∃ totals sent delta is,
      x.writeDelta (.ofSignature s) source sink = (.ok totals, sent) ∧ Taken sent delta true ∧
      (∀ taken b, Schedule (DeltaEncoder.start (.ofSignature s)) file taken (.ok .done) b →
        taken ++ b.output.content = delta) ∧
      (∀ js, ConsistsOf delta js ↔ js = is ++ [.close (Blake3.hash file)]) ∧
      (∀ i ∈ is, (∀ checksum, i ≠ .close checksum) ∧ 0 < i.fileLength) ∧
      is.IsChain Instruction.MayPrecede ∧ Tiles is file := by
  have hv := (Params.check_iff _).mp hs
  obtain ⟨sent, hwrite, hsent⟩ := x.writeDelta_spec hs hsink hsource hk
  refine ⟨_, sent, s.delta file, s.body file, hwrite, hsent,
    fun _ _ h => (DeltaEncoder.issued_of_done hv h).1, fun js => ⟨fun h => ?_, ?_⟩, fun i hi => ?_,
    s.isChain_body hv file, s.tiles_body hv file⟩
  · exact h.unique (s.consistsOf_delta hv file)
  · rintro rfl
    exact s.consistsOf_delta hv file
  · have hplain := s.plain_body hv file i hi
    refine ⟨fun checksum he => ?_, hplain.pos⟩
    rw [he] at hplain
    exact hplain.sized

/-- A file of copies and insertions in turn, of which one copy is of two blocks. -/
theorem writeDelta_normalForm_mixed :
    ∃ totals sent is,
      standard.writeDelta (.ofSignature twoBlocks) (⟨.ofBytes mixedFile⟩ : RawSource)
        (⟨{}⟩ : RawSink) = (.ok totals, sent) ∧
      (∀ js, ConsistsOf sent.writer.written.toList js ↔ js = is ++ [.close (Blake3.hash mixedFile)]) ∧
      is = [.copy 0 64, .insert [9], .copy 0 128, .insert [7, 7, 7]] ∧
      is.IsChain Instruction.MayPrecede ∧ Tiles is mixedFile := by
  have hs : twoBlocks.params.check = .ok () := rfl
  obtain ⟨totals, sent, delta, is, hwrite, htaken, -, hreads, -, hchain, htiles⟩ :=
    writeDelta_normalForm standard hs (RawSink.faithful [] framePayloadLimit)
      (RawSource.delivers_ofBytes mixedFile) RawSink.holds_new
  have hwritten : sent.writer.written.toList = delta := htaken.2
  rw [← hwritten] at hreads
  have hall := (hreads _).mp (consistsOf_of_writeDelta hs hwrite)
  have his : twoBlocks.body mixedFile = is := List.append_cancel_right hall
  exact ⟨totals, sent, is, hwrite, hreads, his ▸ body_mixedFile, hchain, htiles⟩

/-- **Of a file that is compared with the signature of a basis, everything is copied that the basis
has too.** A byte from which on the file has a whole block of the basis lies in a copy. A file that is
made of whole blocks of the basis, in any order and the short last block at the end if at all, is
copied entirely, and so is the basis itself. Nothing is assumed about digests that agree. -/
theorem writeDelta_complete (x : Exchange) {p : Params} (hp : p.check = .ok ()) (basis : Bytes)
    (hsink : Sink.Faithful Taken true framePayloadLimit) {source : σ}
    (hsource : Source.Delivers source ⟨file, .ok ()⟩) {sink : κ} (hk : Taken sink [] false) :
    let length := p.blockLength.toNat
    ∃ s totals sent delta is, Signature.ofBytes p basis = .ok s ∧
      x.writeDelta (.ofSignature s) source sink = (.ok totals, sent) ∧ Taken sent delta true ∧
      (∀ taken b, Schedule (DeltaEncoder.start (.ofSignature s)) file taken (.ok .done) b →
        taken ++ b.output.content = delta ∧ b.state.totals = totals) ∧
      (∀ js, ConsistsOf delta js ↔ js = is) ∧
      (∀ i, i + length ≤ file.length → (file.drop i).take length ∈ blocksOf length basis →
        CopiedAt is i) ∧
      (∀ (blocks : List Bytes) (last : Bytes),
        (∀ block ∈ blocks, block ∈ blocksOf length basis ∧ block.length = length) →
        (last = [] ∨ last ∈ blocksOf length basis ∧ last.length < length) →
        file = blocks.flatten ++ last → totals.inserted = 0 ∧ totals.copied = file.length) ∧
      (file = basis → totals.inserted = 0 ∧ totals.copied = basis.length) := by
  intro length
  have hv := (Params.check_iff _).mp hp
  obtain ⟨s, hs, rfl, -⟩ := Signature.ofBytes_spec hv basis
  obtain ⟨sent, hwrite, hsent⟩ := x.writeDelta_spec hp hsink hsource hk
  have hmade : ∀ (blocks : List Bytes) (last : Bytes),
      (∀ block ∈ blocks, block ∈ blocksOf length basis ∧ block.length = length) →
      (last = [] ∨ last ∈ blocksOf length basis ∧ last.length < length) →
      file = blocks.flatten ++ last →
      ((s.instructions file).foldl DeltaTotals.add .zero).inserted = 0 ∧
        ((s.instructions file).foldl DeltaTotals.add .zero).copied = file.length := by
    rintro blocks last hblocks hlast rfl
    exact Signature.totals_of_marks (Signature.marks_body_flatten hv hs hblocks hlast)
  refine ⟨s, _, sent, s.delta file, s.instructions file, hs, hwrite, hsent,
    fun _ _ h => DeltaEncoder.issued_of_done hv h, fun js => ⟨fun h => ?_, ?_⟩, fun i hi hb => ?_,
    hmade, ?_⟩
  · exact h.unique (s.consistsOf_delta hv file)
  · rintro rfl
    exact s.consistsOf_delta hv file
  · exact (Signature.copiedAt_body hv hs hi hb).append _
  · rintro rfl
    obtain ⟨blocks, last, hfile, hblocks, hlast⟩ :=
      exists_flatten_blocksOf (Signature.blockLength_pos hv) file
    exact hmade blocks last hblocks hlast hfile

/-- A basis of two blocks: a file that has the second of them behind a byte that is in neither, and one
of both in another order, one of them twice. -/
theorem writeDelta_complete_blocks :
    let basis : Bytes := .replicate 64 1 ++ .replicate 64 2
    let write (s : Signature) (file : Bytes) :=
      standard.writeDelta (.ofSignature s) (⟨.ofBytes file⟩ : RawSource) (⟨{}⟩ : RawSink)
    ∃ s, Signature.ofBytes ⟨64, 4⟩ basis = .ok s ∧
      (∃ totals sent is, write s (9 :: (.replicate 64 2 ++ [7])) = (.ok totals, sent) ∧
        ConsistsOf sent.writer.written.toList is ∧ CopiedAt is 1) ∧
      (∃ totals sent,
        write s (.replicate 64 2 ++ (.replicate 64 1 ++ .replicate 64 2)) = (.ok totals, sent) ∧
        totals.inserted = 0 ∧ totals.copied = 192) ∧
      ∃ totals sent, write s basis = (.ok totals, sent) ∧ totals.inserted = 0 ∧ totals.copied = 128 := by
  intro basis write
  have hp : Params.check ⟨64, 4⟩ = .ok () := rfl
  have hblocks : blocksOf 64 basis = [.replicate 64 1, .replicate 64 2] := by decide +kernel
  have hwrites (file : Bytes) := writeDelta_complete standard hp basis
    (RawSink.faithful [] framePayloadLimit) (RawSource.delivers_ofBytes file) RawSink.holds_new
  obtain ⟨s, totals, sent, -, -, hs, hwrite, -, -, -, -, -, hsame⟩ := hwrites basis
  refine ⟨s, hs, ?_, ?_, totals, sent, hwrite, hsame rfl⟩
  · obtain ⟨t, totals, sent, delta, is, ht, hwrite, htaken, -, hreads, hcopied, -⟩ :=
      hwrites (9 :: (.replicate 64 2 ++ [7]))
    obtain rfl : s = t := Except.ok.inj (hs.symm.trans ht)
    have hwritten : sent.writer.written.toList = delta := htaken.2
    refine ⟨totals, sent, is, hwrite, ?_, hcopied 1 (by decide) ?_⟩
    · rw [hwritten]
      exact (hreads _).mpr rfl
    · change _ ∈ blocksOf 64 basis
      rw [hblocks]
      decide +kernel
  · obtain ⟨t, totals, sent, -, -, ht, hwrite, -, -, -, -, hmade, -⟩ :=
      hwrites (.replicate 64 2 ++ (.replicate 64 1 ++ .replicate 64 2))
    obtain rfl : s = t := Except.ok.inj (hs.symm.trans ht)
    refine ⟨totals, sent, hwrite,
      hmade [.replicate 64 2, .replicate 64 1, .replicate 64 2] [] ?_ (.inl rfl) (by decide +kernel)⟩
    change ∀ block ∈ _, block ∈ blocksOf 64 basis ∧ block.length = 64
    rw [hblocks]
    decide +kernel

end Exchange

end BlockSync
