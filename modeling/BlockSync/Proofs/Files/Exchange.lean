import BlockSync.Files.Exchange
import BlockSync.Proofs.Exchange.Whole
import BlockSync.Proofs.Files.Store

/-!
# What becomes of files

* `Exchange.changesOnly_fileSignature`, `Exchange.changesOnly_fileDelta`,
  `Exchange.changesOnly_filePatched`: an exchange on files changes none but its output;
* `Exchange.fileSignature_eq`, `Exchange.fileDelta_eq`, `Exchange.filePatched_eq`: what is in the
  output then, if it got so far as to make it. The inputs are read after the output was emptied.
-/

namespace BlockSync.Exchange

variable (x : Exchange) (files : FileStore)

/-! ## Files that do not change -/

theorem changesOnly_fileSignature (basis output : String) :
    files.ChangesOnly (x.fileSignature files basis output).2 output := by
  unfold fileSignature
  split
  · exact .refl files output
  · split
    · exact .refl files output
    · next hcreate => exact .of_create hcreate _

theorem changesOnly_fileDelta (described new output : String) :
    files.ChangesOnly (x.fileDelta files described new output).2 output := by
  unfold fileDelta
  split
  · exact .refl files output
  · split
    · exact .refl files output
    · split
      · exact .refl files output
      · split
        · exact .refl files output
        · next hcreate => exact .of_create hcreate _

theorem changesOnly_filePatched (basis delta output : String) :
    files.ChangesOnly (x.filePatched files basis delta output).2 output := by
  unfold filePatched
  split
  · exact .refl files output
  · split
    · exact .refl files output
    · split
      · exact .refl files output
      · next hcreate => exact .of_create hcreate _

/-! ## The file that is written -/

variable {files} {emptied : FileStore} {input old out : Location} {content stored : Array UInt8}
  {basis described new delta output : String}

/-- The output holds the signature of what the basis holds when it is read. -/
theorem fileSignature_eq (hopen : files.openFile basis = .ok input)
    (hcreate : files.create output = .ok (out, emptied)) (hc : emptied.content input = .ok content)
    {p : Params} (hp : x.settings.params (files.size input) = .ok p) (hv : p.Valid) :
    ∃ s, Signature.ofBytes p content.toList = .ok s ∧
      (x.fileSignature files basis output).2 = emptied.write out s.encode.toArray := by
  obtain ⟨s, hs, -, -⟩ := Signature.ofBytes_spec hv content.toList
  obtain ⟨totals, sink, hrun, -, hwritten⟩ := x.writeSignature_spec hp hv hs (RawSink.faithful [] _)
    (FileStore.delivers_reader hc) RawSink.holds_new
  refine ⟨s, hs, ?_⟩
  simp only [fileSignature, hopen, hcreate, hrun]
  congr 1
  exact Array.toList_inj.mp hwritten

/-- The output holds the delta of what the new file holds when it is read. -/
theorem fileDelta_eq {d : Location} {s : Signature} (hdescribed : files.openFile described = .ok d)
    (hd : files.content d = .ok stored) (hs : x.readSignature (RawSource.mk (files.reader d)) = .ok s)
    (hopen : files.openFile new = .ok input) (hcreate : files.create output = .ok (out, emptied))
    (hc : emptied.content input = .ok content) :
    (x.fileDelta files described new output).2 =
      emptied.write out (s.delta content.toList).toArray := by
  have hv : s.params.Valid := by
    have hread := x.readSignature_spec (FileStore.delivers_reader hd)
    rw [hs] at hread
    rcases hl : SignatureLoader.start.conclude stored.toList with e | s' <;> rw [hl] at hread <;>
      cases hread
    exact SignatureLoader.valid_of_conclude hl
  obtain ⟨sink, hrun, -, hwritten⟩ := x.writeDelta_spec ((Params.check_iff _).mpr hv)
    (RawSink.faithful [] _) (FileStore.delivers_reader hc) RawSink.holds_new
  simp only [fileDelta, hdescribed, hs, hopen, hcreate, hrun]
  congr 1
  exact Array.toList_inj.mp hwritten

/-- The output holds what the delta makes of the basis, or a part of it. -/
theorem filePatched_eq (hopen : files.openFile basis = .ok old)
    (hdelta : files.openFile delta = .ok input) (hcreate : files.create output = .ok (out, emptied))
    (hold : emptied.content old = .ok stored) (hc : emptied.content input = .ok content) :
    ∃ taken, taken <+: (readDelta stored.toList content.toList).output ∧
      (x.filePatched files basis delta output).2 = emptied.write out taken.toArray := by
  have hverdict := x.writePatched_spec (FileStore.shows_basis hold) (RawSink.faithful [] _)
    (FileStore.delivers_reader hc) RawSink.holds_new
  simp only [filePatched, hopen, hdelta, hcreate]
  rcases hrun : x.writePatched (emptied.basis old) (RawSource.mk (emptied.reader input))
    (RawSink.mk {}) with ⟨f | n, sink⟩ <;> rw [hrun] at hverdict
  · obtain ⟨e, o, -, -, -, taken, htaken, -, hwritten⟩ := hverdict
    refine ⟨taken, htaken, ?_⟩
    congr 1
    exact Array.toList_inj.mp hwritten
  · obtain ⟨-, ⟨-, hwritten⟩, -⟩ := hverdict
    refine ⟨_, List.prefix_rfl, ?_⟩
    congr 1
    exact Array.toList_inj.mp hwritten

end BlockSync.Exchange
