import BlockSync.Proofs.Delta.Runs
import BlockSync.Proofs.Delta.Sizes
import BlockSync.Proofs.Exchange.Instructions
import BlockSync.Proofs.Pipe.Metered

/-!
# The size of the delta that an exchange writes

* `DeltaEncoder.run_counts`: what a run of an encoder counts, at its sink and of its instructions;
* **`Exchange.writeDelta_accounts`**: the totals are those of the instructions in the stream, its length
  follows from them, and it is hardly longer than the file;
* **`Exchange.writeDelta_inserts`**: no insertion exceeds the limit but one at the end, which takes what
  is left of the file;
* `Exchange.writeDelta_overlong`: that one may.
-/

namespace BlockSync

variable {σ κ : Type} [Source σ] [Sink κ] {Taken : κ → Bytes → Bool → Prop} {s : Signature}
  {file : Bytes}

/-- A run of an encoder that may take enough iterations succeeds, and has counted the bytes and the
instructions of the delta. -/
theorem DeltaEncoder.run_counts (hs : s.params.Valid)
    (hsink : Sink.Faithful Taken true framePayloadLimit) {source : σ}
    (hsource : Source.Delivers source ⟨file, .ok ()⟩) {sink : κ} (hk : Taken sink [] false) (p : Pipe)
    {limit : Nat} (hl : Pipe.iterationsFor file.length (s.delta file).length ≤ limit) :
    ∃ counted r, p.run limit source (start (.ofSignature s)) sink = (.ok counted, r) ∧
      counted.pushed = (s.delta file).length ∧
      r.bench.state.totals = (s.instructions file).foldl DeltaTotals.add .zero := by
  have hlaw := lawful s
  have htells := tells_start (Signature.blockLength_pos hs)
  have hfuture := future_start s file
  have hl' : Pipe.iterationsFor file.length
      ((outlook s).future (start (.ofSignature s)) file).output.length ≤ limit := by
    rwa [hfuture]
  have hresult := p.run_of_le hlaw.sound htells hlaw.prompt hsink nofun hsource hk hl'
  rcases hrun : p.run limit source (start (.ofSignature s)) sink with ⟨f | counted, r⟩ <;>
    rw [hrun] at hresult
  · rw [hfuture] at hresult
    obtain ⟨⟨e, -, he⟩ | hf, -⟩ := hresult
    · cases he
    · exact hf.elim
  · have hpushed := p.pushed_of_run hlaw.sound htells hlaw.prompt hsink hsource hk hl' hrun
    rw [hfuture] at hpushed hresult
    obtain ⟨-, -, -, hsettled, htotals, -⟩ := hresult
    rw [Exchange.totals_of_settled hsettled] at htotals
    exact ⟨counted, r, rfl, hpushed, htotals⟩

namespace Exchange

/-- **The totals of a delta are exact, and whatever the signature it is hardly longer than the file.**
In this exchange, in a run with queues of any capacity and in any other order of steps, the totals are
the numbers of copies and insertions in the stream that is written, and the bytes that they build,
together those of the file. The stream is as long as the instructions are on the wire, and as the bytes
that a run has counted at its sink. -/
theorem writeDelta_accounts (x : Exchange) (hs : s.params.check = .ok ())
    (hsink : Sink.Faithful Taken true framePayloadLimit) {source : σ}
    (hsource : Source.Delivers source ⟨file, .ok ()⟩) {sink : κ} (hk : Taken sink [] false) :
    ∃ totals sent delta is,
      x.writeDelta (.ofSignature s) source sink = (.ok totals, sent) ∧ Taken sent delta true ∧
      (∀ taken b, Schedule (DeltaEncoder.start (.ofSignature s)) file taken (.ok .done) b →
        taken ++ b.output.content = delta ∧ b.state.totals = totals) ∧
      (∀ (p : Pipe) limit, Pipe.iterationsFor file.length delta.length ≤ limit →
        ∃ counted r, p.run limit source (DeltaEncoder.start (.ofSignature s)) sink = (.ok counted, r) ∧
          counted.pushed = delta.length ∧ r.bench.state.totals = totals) ∧
      (∀ js, ConsistsOf delta js ↔ js = is) ∧
      totals.copies = is.countP Instruction.isCopy ∧
      totals.inserts = is.countP Instruction.isInsert ∧
      totals.copied = ((is.filter Instruction.isCopy).map Instruction.fileLength).sum ∧
      totals.inserted = ((is.filter Instruction.isInsert).map Instruction.fileLength).sum ∧
      totals.total = file.length ∧
      delta.length = 4 + (is.map Instruction.wireLength).sum ∧
      delta.length = 37 + 13 * totals.copies + 5 * totals.inserts + totals.inserted ∧
      delta.length ≤ file.length + 5 * (file.length / 32768) + 60 := by
  have hv := (Params.check_iff _).mp hs
  obtain ⟨sent, hwrite, hsent⟩ := x.writeDelta_spec hs hsink hsource hk
  have hcounts := foldl_add_zero (s.instructions file)
  have htotal : ((s.instructions file).foldl DeltaTotals.add .zero).total = file.length := by
    rw [s.totals_instructions, total_foldl, Signature.builtLength_body hv]
    exact Nat.zero_add _
  have hlength := s.length_delta_eq file
  have hinstructions := s.wireSize_instructions file
  have hbody := wireSize_foldl (s.plain_body hv file) .zero
  rw [← s.totals_instructions] at hbody
  have hle := Signature.wireSize_body_le hv file
  refine ⟨_, sent, s.delta file, s.instructions file, hwrite, hsent,
    fun _ _ h => DeltaEncoder.issued_of_done hv h,
    fun p limit hl => DeltaEncoder.run_counts hv hsink hsource hk p hl,
    s.consistsOf_delta_iff hv file, congrArg DeltaTotals.copies hcounts,
    congrArg DeltaTotals.inserts hcounts, congrArg DeltaTotals.copied hcounts,
    congrArg DeltaTotals.inserted hcounts, htotal, hlength, ?_, ?_⟩
  · simp only [DeltaTotals.wireSize, DeltaTotals.zero] at hbody ⊢
    omega
  · rw [show insertLimit = 32768 from rfl] at hle
    omega

/-- Two copies, of one block and of two, and two insertions, also in a run with queues of 16 bytes. -/
theorem writeDelta_accounts_mixed :
    ∃ totals sent counted r,
      standard.writeDelta (.ofSignature twoBlocks) (⟨.ofBytes mixedFile⟩ : RawSource)
        (⟨{}⟩ : RawSink) = (.ok totals, sent) ∧
      totals = ⟨2, 2, 192, 4⟩ ∧ totals.total = mixedFile.length ∧ sent.writer.written.size = 77 ∧
      Pipe.run ⟨16, by decide, by decide⟩ 300 (⟨.ofBytes mixedFile⟩ : RawSource)
        (DeltaEncoder.start (.ofSignature twoBlocks)) (⟨{}⟩ : RawSink) = (.ok counted, r) ∧
      counted.pushed = 77 ∧ r.bench.state.totals = totals := by
  have hs : twoBlocks.params.check = .ok () := rfl
  obtain ⟨totals, sent, delta, is, hwrite, htaken, -, hruns, hreads, hcopies, hinserts, hcopied,
    hinserted, htotal, -, hlength, -⟩ :=
    writeDelta_accounts standard hs (RawSink.faithful [] framePayloadLimit)
      (RawSource.delivers_ofBytes mixedFile) RawSink.holds_new
  have hwritten : sent.writer.written.toList = delta := htaken.2
  have hall := (hreads _).mp (hwritten ▸ consistsOf_of_writeDelta hs hwrite)
  rw [Signature.instructions, body_mixedFile] at hall
  subst hall
  have htotals : totals = ⟨2, 2, 192, 4⟩ := by
    cases totals
    simp only [DeltaTotals.mk.injEq]
    exact ⟨hcopies, hinserts, hcopied, hinserted⟩
  have hsize : delta.length = 77 := by simp [hlength, htotals]
  obtain ⟨counted, r, hrun, hpushed, hcounted⟩ := hruns ⟨16, by decide, by decide⟩ 300 (by
    rw [hsize]
    decide +kernel)
  refine ⟨totals, sent, counted, r, hwrite, htotals, htotal, ?_, hrun, hpushed.trans hsize, hcounted⟩
  rw [← hsize, ← hwritten, Array.length_toList]

/-- **No insertion exceeds the limit but one at the end of a delta.** Of `n` bytes inserted since the
last copy that one holds what is left when whole runs of the limit's length are cut from the front, a
block's length less one byte being kept back: so the limit is kept in a delta just when it is by that
rest, and is exceeded by less than a block. -/
theorem writeDelta_inserts (x : Exchange) (hs : s.params.check = .ok ())
    (hsink : Sink.Faithful Taken true framePayloadLimit) {source : σ}
    (hsource : Source.Delivers source ⟨file, .ok ()⟩) {sink : κ} (hk : Taken sink [] false) :
    ∃ totals sent delta is,
      x.writeDelta (.ofSignature s) source sink = (.ok totals, sent) ∧ Taken sent delta true ∧
      (∀ taken b, Schedule (DeltaEncoder.start (.ofSignature s)) file taken (.ok .done) b →
        taken ++ b.output.content = delta) ∧
      (∀ js, ConsistsOf delta js ↔ js = is ++ [.close (Blake3.hash file)]) ∧
      (∀ before bs after, is = before ++ .insert bs :: after →
        (after ≠ [] → bs.length ≤ insertLimit) ∧
        (after = [] → bs.length = lastInsertion s.blockLength (loose 0 is))) ∧
      (∀ bs, .insert bs ∈ is → bs.length < insertLimit + (s.blockLength - 1)) ∧
      ((∀ bs, .insert bs ∈ is → bs.length ≤ insertLimit) ↔
        lastInsertion s.blockLength (loose 0 is) ≤ insertLimit) := by
  have hv := (Params.check_iff _).mp hs
  obtain ⟨sent, hwrite, hsent⟩ := x.writeDelta_spec hs hsink hsource hk
  exact ⟨_, sent, s.delta file, s.body file, hwrite, hsent,
    fun _ _ h => (DeltaEncoder.issued_of_done hv h).1, s.consistsOf_delta_iff hv file,
    fun before bs after h => Signature.length_insert hv file h,
    fun bs h => Signature.length_insert_lt hv file h, Signature.inserts_le_iff hv file⟩

/-- One byte between two copies, and three at the end that are fewer than a block. -/
theorem writeDelta_inserts_mixed :
    ∃ totals sent is,
      standard.writeDelta (.ofSignature twoBlocks) (⟨.ofBytes mixedFile⟩ : RawSource)
        (⟨{}⟩ : RawSink) = (.ok totals, sent) ∧
      ConsistsOf sent.writer.written.toList (is ++ [.close (Blake3.hash mixedFile)]) ∧
      is = [.copy 0 64, .insert [9], .copy 0 128, .insert [7, 7, 7]] ∧
      loose 0 is = 3 ∧ lastInsertion 64 3 = 3 ∧ ∀ bs, .insert bs ∈ is → bs.length ≤ insertLimit := by
  have hs : twoBlocks.params.check = .ok () := rfl
  obtain ⟨totals, sent, delta, is, hwrite, htaken, -, hreads, hinsert, -, hlimit⟩ :=
    writeDelta_inserts standard hs (RawSink.faithful [] framePayloadLimit)
      (RawSource.delivers_ofBytes mixedFile) RawSink.holds_new
  have hwritten : sent.writer.written.toList = delta := htaken.2
  rw [← hwritten] at hreads
  have hall := (hreads _).mp (consistsOf_of_writeDelta hs hwrite)
  have his : is = [.copy 0 64, .insert [9], .copy 0 128, .insert [7, 7, 7]] :=
    (List.append_cancel_right hall).symm.trans body_mixedFile
  have hloose : loose 0 is = 3 := by rw [his]; rfl
  have hlast : [7, 7, 7].length = lastInsertion twoBlocks.blockLength (loose 0 is) :=
    (hinsert [.copy 0 64, .insert [9], .copy 0 128] [7, 7, 7] [] his).2 rfl
  refine ⟨totals, sent, is, hwrite, (hreads _).mpr rfl, his, hloose, ?_, hlimit.mpr ?_⟩
  · rw [hloose] at hlast
    exact hlast.symm
  · rw [← hlast]
    decide

/-- One byte more than the limit that the signature does not know is inserted at once: only 32706 bytes
of the file have been passed over when its end comes, and the 63 bytes left join them. -/
theorem writeDelta_overlong :
    ∃ totals sent is bs,
      standard.writeDelta (.ofSignature ⟨⟨64, 4⟩, #[]⟩)
        (⟨.ofBytes (List.replicate 32769 0)⟩ : RawSource) (⟨{}⟩ : RawSink) = (.ok totals, sent) ∧
      ConsistsOf sent.writer.written.toList is ∧ .insert bs ∈ is ∧ bs.length = 32769 ∧
      insertLimit < 32769 := by
  have hs : (⟨⟨64, 4⟩, #[]⟩ : Signature).params.check = .ok () := rfl
  have hv := (Params.check_iff _).mp hs
  obtain ⟨file, hfile⟩ : ∃ file : Bytes, file = List.replicate 32769 0 := ⟨_, rfl⟩
  have hlast : lastInsertion 64 file.length = 32769 := by
    rw [hfile, List.length_replicate]
    decide
  have hlong : insertLimit < lastInsertion 64 file.length := by
    rw [hlast]
    decide
  obtain ⟨bs, hmem, hbs⟩ := Signature.exists_overlong hv (fun _ => rfl) hlong
  obtain ⟨sent, hwrite, -⟩ := standard.writeDelta_spec hs (RawSink.faithful [] framePayloadLimit)
    (RawSource.delivers_ofBytes file) RawSink.holds_new
  rw [← hfile]
  exact ⟨_, sent, Signature.instructions ⟨⟨64, 4⟩, #[]⟩ file, bs, hwrite,
    consistsOf_of_writeDelta hs hwrite, List.mem_append_left _ hmem, hbs.trans hlast, by decide⟩

end Exchange

end BlockSync
