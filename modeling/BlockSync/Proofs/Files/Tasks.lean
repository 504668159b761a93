import BlockSync.Proofs.Exchange.Truncation
import BlockSync.Proofs.Exchange.Unread
import BlockSync.Proofs.Files.Exchange

/-!
# Inputs that are no good

A task writes one file. It looks at its inputs first, and makes its output empty when they are at hand,
whatever that has held before.

* `FileTask`: the tasks of an exchange that write a file;
* `FileStore.Builds`: what a delta builds from a file or a directory;
* `Exchange.wrote_signature_iff`, `Exchange.wrote_delta_iff`, `Exchange.wrote_patched_iff`: when a phase
  succeeds, and what is in its sink then;
* `TaskInput.Good`, `TaskInput.Bad`: an input is at hand, or what is wrong with it;
  `FileTask.Refused`, `FileTask.Ready`: the same of all inputs of a task;
* `FileTask.Makes`: the stream that a task makes of its inputs;
* `FileTask.phase`: what is left to do when the output is empty; **`FileTask.perform_eq`**: all tasks
  are made of that in the same way;
* **`FileTask.spares_or_replaces`**: a bad input leaves the output alone, and otherwise just the stream
  is in it after success.
-/

namespace BlockSync

/-- An input of a task. -/
inductive TaskInput where
  | file (path : String)
  /-- A file that is to be read as a signature before anything else is done. -/
  | signature (path : String)

/-- A task of an exchange that writes a file. -/
inductive FileTask where
  /-- The signature of a file. -/
  | signature (basis : String)
  /-- The delta of a file against a signature. -/
  | delta (described new : String)
  /-- What a delta makes of a file. -/
  | patched (basis changes : String)
  /-- The same, if the delta arrives over a connection. -/
  | received (wire : Reader) (basis : String)

/-- What becomes of a phase, apart from what it has counted. -/
def uncounted {α κ : Type} (ended : Except Failure α × κ) : Except Failure Unit × κ :=
  (ended.1.map fun _ => (), ended.2)

/-! ## Phases that end well -/

/-- A phase has succeeded, and just the stream is in its sink. -/
def Wrote (ended : Except Failure Unit × RawSink) (stream : Bytes) : Prop :=
  ended.1 = .ok () ∧ ended.2.writer.written.toList = stream

theorem wrote_of_holds {α : Type} {a : α} {sink : RawSink} {made : Bytes} {ended : Bool}
    (h : RawSink.Holds [] sink made ended) (stream : Bytes) :
    Wrote (uncounted (.ok a, sink)) stream ↔ made = stream := by
  refine ⟨fun hw => h.2.symm.trans hw.2, ?_⟩
  rintro rfl
  exact ⟨rfl, h.2⟩

theorem not_wrote_error {α : Type} (f : Failure) (sink : RawSink) (stream : Bytes) :
    ¬ Wrote (uncounted ((.error f, sink) : Except Failure α × RawSink)) stream := by
  intro h
  cases h.1

theorem not_wrote {α : Type} {ended : Except Failure α × RawSink} (h : ∀ a, ended.1 ≠ .ok a)
    (stream : Bytes) : ¬ Wrote (uncounted ended) stream := by
  obtain ⟨f | a, sink⟩ := ended
  · exact not_wrote_error f sink stream
  · exact absurd rfl (h a)

namespace FileStore

variable {s : FileStore} {l : Location} {verify : Bool} {delta file : Bytes}

/-- The delta builds the file from what is at the location. A directory cannot be read, so that the delta
has to build the same whatever is in it. -/
inductive Builds (s : FileStore) (l : Location) (verify : Bool) (delta file : Bytes) : Prop
  | file {stored : Array UInt8} (hread : s.content l = .ok stored)
      (hdelta : IsDelta stored.toList verify delta file)
  | directory (hentry : s.entry? l = some .directory)
      (hdelta : IsBlindDelta directoryEnd verify delta file)

theorem builds_file_iff {stored : Array UInt8} (h : s.entry? l = some (.file stored)) :
    s.Builds l verify delta file ↔ IsDelta stored.toList verify delta file := by
  have hread : s.content l = .ok stored := by rw [content, h]
  refine ⟨?_, .file hread⟩
  rintro (⟨hread', hdelta⟩ | ⟨hentry, -⟩)
  · cases hread.symm.trans hread'
    exact hdelta
  · cases h.symm.trans hentry

theorem builds_directory_iff (h : s.entry? l = some .directory) :
    s.Builds l verify delta file ↔ IsBlindDelta directoryEnd verify delta file := by
  refine ⟨?_, .directory h⟩
  rintro (⟨hread, -⟩ | ⟨-, hdelta⟩)
  · cases h.symm.trans (entry?_of_content hread)
  · exact hdelta

theorem not_builds (h : s.entry? l = none) : ¬ s.Builds l verify delta file := by
  rintro (⟨hread, -⟩ | ⟨hentry, -⟩)
  · cases h.symm.trans (entry?_of_content hread)
  · cases h.symm.trans hentry

end FileStore

namespace Exchange

variable (x : Exchange) {store : FileStore} {l : Location} {stream : Bytes}

section

variable {σ κ : Type} [Source σ] [Sink κ] {source : σ} {e : TransferError}

/-- No signature is read from a file that cannot be read. -/
theorem readSignature_of_nothing (h : Source.Delivers source ⟨[], .error e⟩) :
    x.readSignature source = .error (.error e) := by
  obtain ⟨r, hrun⟩ := Pipe.run_of_nothing h x.pipe (Source.available source) 0 SignatureLoader.start
    NoSink.mk
  simp only [readSignature, hrun]

/-- No signature is written of a basis that cannot be read. -/
theorem writeSignature_of_nothing (h : Source.Delivers source ⟨[], .error e⟩) (size : Nat) (sink : κ)
    (totals : PipeTotals) : (x.writeSignature size source sink).1 ≠ .ok totals := by
  unfold writeSignature
  split
  · nofun
  · next start _ =>
    obtain ⟨r, hrun⟩ := Pipe.run_of_nothing h x.pipe (Source.available source)
      (SignatureEmitter.outputBound (Source.available source)) start sink
    simp only [hrun]
    nofun

/-- No delta is written of a file that cannot be read. -/
theorem writeDelta_of_nothing (h : Source.Delivers source ⟨[], .error e⟩) (t : SignatureIndex)
    (sink : κ) : (x.writeDelta t source sink).1 = .error (.error e) := by
  obtain ⟨r, hrun⟩ := Pipe.run_of_nothing h x.pipe (Source.available source)
    (DeltaEncoder.outputBound (Source.available source)) (DeltaEncoder.start t) sink
  simp only [writeDelta, hrun]
  rfl

end

/-- The signature that is read from a file. -/
theorem readSignature_of_stream {stored : Array UInt8} {p : Params} {records : List Bytes}
    (hread : store.content l = .ok stored) (hstream : Signature.IsStream p records stored.toList) :
    x.readSignature (RawSource.mk (store.reader l)) = .ok (.ofRecords p records) := by
  rw [x.readSignature_spec (FileStore.delivers_reader hread),
    SignatureLoader.conclude_of_isStream hstream]
  rfl

theorem readSignature_of_malformed {stored : Array UInt8} (hread : store.content l = .ok stored)
    (hstream : ¬ ∃ p records, Signature.IsStream p records stored.toList) :
    x.readSignature (RawSource.mk (store.reader l)) =
      .error (.error (Signature.refusal stored.toList)) := by
  have hrefused := (SignatureLoader.conclude_cases stored.toList).resolve_left hstream
  rw [x.readSignature_spec (FileStore.delivers_reader hread), hrefused]
  rfl

/-- When a signature is written, and which. -/
theorem wrote_signature_iff (size : Nat) :
    Wrote (uncounted (x.writeSignature size (RawSource.mk (store.reader l)) (RawSink.mk {}))) stream ↔
      ∃ content p s, store.content l = .ok content ∧ x.settings.params size = .ok p ∧
        Signature.ofBytes p content.toList = .ok s ∧ s.encode = stream := by
  rcases hc : store.content l with fault | content
  · have hnothing := FileStore.delivers_unreadable hc
    refine iff_of_false (not_wrote (x.writeSignature_of_nothing hnothing size _) stream) ?_
    rintro ⟨content, p, s, h, -⟩
    cases h
  · rcases hp : x.settings.params size with e | p
    · refine iff_of_false (not_wrote (fun totals h => ?_) stream) ?_
      · simp only [writeSignature, hp, bind, Except.bind] at h
        cases h
      · rintro ⟨content, p, s, -, h, -⟩
        cases h
    · have hv : p.Valid := ((Params.checked_iff ..).mp hp).2
      obtain ⟨s, hs, -⟩ := Signature.ofBytes_spec hv content.toList
      obtain ⟨totals, sink, hrun, htaken⟩ := x.writeSignature_spec hp hv hs (RawSink.faithful [] _)
        (FileStore.delivers_reader hc) RawSink.holds_new
      rw [hrun, wrote_of_holds htaken]
      refine ⟨fun h => ⟨content, p, s, rfl, rfl, hs, h⟩, ?_⟩
      rintro ⟨content', p', s', hc', hp', hs', rfl⟩
      cases hc'
      cases hp'
      rw [hs] at hs'
      cases hs'
      rfl

/-- When a delta is written, and which. -/
theorem wrote_delta_iff {s : Signature} (hs : s.params.Valid) :
    Wrote (uncounted (x.writeDelta (.ofSignature s) (RawSource.mk (store.reader l)) (RawSink.mk {})))
        stream ↔
      ∃ content, store.content l = .ok content ∧ s.delta content.toList = stream := by
  rcases hc : store.content l with fault | content
  · have hfail := x.writeDelta_of_nothing (FileStore.delivers_unreadable hc) (.ofSignature s)
      (RawSink.mk {})
    refine iff_of_false (not_wrote (fun totals h => ?_) stream) ?_
    · exact nomatch hfail.symm.trans h
    · rintro ⟨content, h, -⟩
      cases h
  · obtain ⟨sink, hrun, htaken⟩ := x.writeDelta_spec ((Params.check_iff _).mpr hs)
      (RawSink.faithful [] _) (FileStore.delivers_reader hc) RawSink.holds_new
    rw [hrun, wrote_of_holds htaken]
    refine ⟨fun h => ⟨content, rfl, h⟩, ?_⟩
    rintro ⟨content', hc', h⟩
    cases hc'
    exact h

/-- When a delta is applied, and what is made of it. -/
theorem wrote_patched_iff {σ : Type} [Source σ] (hb : Source.Bounded σ) {source : σ}
    {f : Flow TransferError} (hsource : Source.Delivers source f) :
    Wrote (uncounted (x.writePatched (store.basis l) source (RawSink.mk {}))) stream ↔
      f.ending = .ok () ∧ store.Builds l x.settings.verify f.bytes stream := by
  obtain ⟨delta, e | ⟨⟩⟩ := f
  · refine iff_of_false (not_wrote (x.writePatched_ne_ok hb hsource rfl _ _) stream) ?_
    rintro ⟨h, -⟩
    cases h
  rw [and_iff_right rfl]
  rcases he : store.entry? l with _ | stored | _
  · -- without an entry a patcher cannot even start
    have hbasis : store.basis l = ⟨.error .notFound, .error .notFound⟩ := by
      simp only [FileStore.basis, FileStore.extent, FileStore.content, he, Except.map]
    have hfail : x.writePatched (store.basis l) source (RawSink.mk {}) =
        (.error (.error (.io .notFound)), RawSink.mk {}) := by
      rw [hbasis]
      rfl
    rw [hfail]
    exact iff_of_false (not_wrote_error _ _ stream) (FileStore.not_builds he)
  · have hc : store.content l = .ok stored := by rw [FileStore.content, he]
    have hverdict := x.writePatched_spec (FileStore.shows_basis hc) (RawSink.faithful [] _) hsource
      RawSink.holds_new
    rw [FileStore.builds_file_iff he, ← firstOffence_eq_none_iff]
    rcases hrun : x.writePatched (store.basis l) source (RawSink.mk {}) with ⟨f | n, sink⟩ <;>
      rw [hrun] at hverdict
    · obtain ⟨e, o, -, -, ho, -⟩ := hverdict
      rw [ho]
      refine iff_of_false (not_wrote_error f sink stream) ?_
      rintro ⟨h, -⟩
      cases h
    · obtain ⟨hnone, htaken, -⟩ := hverdict
      rw [wrote_of_holds htaken, and_iff_right hnone, eq_comm]
  · have hverdict := x.writePatched_of_mute FileStore.mute_listed (FileStore.listed_basis he)
      (RawSink.faithful [] _) hsource RawSink.holds_new
    rw [FileStore.builds_directory_iff he]
    rcases hrun : x.writePatched (store.basis l) source (RawSink.mk {}) with ⟨f | n, sink⟩ <;>
      rw [hrun] at hverdict
    · exact iff_of_false (not_wrote_error f sink stream) fun h => hverdict ⟨_, h⟩
    · obtain ⟨file, hfile, htaken, -⟩ := hverdict
      rw [wrote_of_holds htaken]
      exact ⟨fun h => h ▸ hfile, hfile.unique⟩

/-- The same of a delta that is in a file. -/
theorem wrote_patched_file_iff {l' : Location} :
    Wrote (uncounted (x.writePatched (store.basis l) (RawSource.mk (store.reader l')) (RawSink.mk {})))
        stream ↔
      ∃ content, store.content l' = .ok content ∧
        store.Builds l x.settings.verify content.toList stream := by
  rcases hc : store.content l' with fault | content
  · rw [x.wrote_patched_iff RawSource.bounded (FileStore.delivers_unreadable hc)]
    refine iff_of_false ?_ ?_
    · rintro ⟨h, -⟩
      cases h
    · rintro ⟨content, h, -⟩
      cases h
  · rw [x.wrote_patched_iff RawSource.bounded (FileStore.delivers_reader hc), and_iff_right rfl]
    refine ⟨fun h => ⟨content, rfl, h⟩, ?_⟩
    rintro ⟨content', hc', h⟩
    cases hc'
    exact h

/-- What inserts bytes can be applied to a directory, what copies them cannot. -/
example :
    let store (i : Instruction) : FileStore := ⟨[(["old"], .directory), (["delta"],
      .file (deltaMark ++ i.encode ++ (Instruction.close (.ofInitial [])).encode).toArray)], []⟩
    let patched (i : Instruction) := ((⟨{ verify := false }, .standard⟩ : Exchange).writePatched
      ((store i).basis ["old"]) (RawSource.mk ((store i).reader ["delta"])) (RawSink.mk {})).1
    patched (.insert [7]) = .ok 1 ∧ patched (.copy 0 1) = .error (.error (.io .isADirectory)) := by
  decide +kernel

end Exchange

/-! ## Inputs -/

namespace TaskInput

variable {files : FileStore} {i : TaskInput}

/-- The path of an input. -/
def path : TaskInput → String
  | .file path | .signature path => path

/-- The input is at hand: it can be opened, and is a signature stream if it has to be one. -/
inductive Good (files : FileStore) : TaskInput → Prop
  | file {path : String} {l : Location} (hopen : files.openFile path = .ok l) : Good files (.file path)
  | signature {path : String} {l : Location} {stored : Array UInt8} {p : Params}
      {records : List Bytes} (hopen : files.openFile path = .ok l)
      (hread : files.content l = .ok stored) (hstream : Signature.IsStream p records stored.toList) :
      Good files (.signature path)

/-- What is wrong with an input. -/
inductive Bad (files : FileStore) : TaskInput → Failure → Prop
  | unopened {i : TaskInput} {fault : Fault} (hopen : files.openFile i.path = .error fault) :
      Bad files i (.error (.io fault))
  /-- A directory can be opened as well. -/
  | unreadable {path : String} {l : Location} {fault : Fault} (hopen : files.openFile path = .ok l)
      (hread : files.content l = .error fault) : Bad files (.signature path) (.error (.io fault))
  | malformed {path : String} {l : Location} {stored : Array UInt8}
      (hopen : files.openFile path = .ok l) (hread : files.content l = .ok stored)
      (hstream : ¬ ∃ p records, Signature.IsStream p records stored.toList) :
      Bad files (.signature path) (.error (Signature.refusal stored.toList))

theorem good_or_bad (files : FileStore) (i : TaskInput) : Good files i ∨ ∃ f, Bad files i f := by
  rcases hopen : files.openFile i.path with fault | l
  · exact .inr ⟨_, .unopened hopen⟩
  cases i with
  | file path => exact .inl (.file hopen)
  | signature path =>
    rcases hread : files.content l with fault | stored
    · exact .inr ⟨_, .unreadable hopen hread⟩
    by_cases hstream : ∃ p records, Signature.IsStream p records stored.toList
    · obtain ⟨p, records, hstream⟩ := hstream
      exact .inl (.signature hopen hread hstream)
    · exact .inr ⟨_, .malformed hopen hread hstream⟩

/-- What is wrong with the first input that is not good. -/
inductive FirstBad (files : FileStore) : List TaskInput → Failure → Prop
  | here {i : TaskInput} {inputs : List TaskInput} {f : Failure} (hbad : Bad files i f) :
      FirstBad files (i :: inputs) f
  | later {i : TaskInput} {inputs : List TaskInput} {f : Failure} (hgood : Good files i)
      (hlater : FirstBad files inputs f) : FirstBad files (i :: inputs) f

theorem firstBad_or_good (files : FileStore) (inputs : List TaskInput) :
    (∃ f, FirstBad files inputs f) ∨ ∀ i ∈ inputs, Good files i := by
  induction inputs with
  | nil => exact .inr nofun
  | cons i inputs ih =>
    rcases good_or_bad files i with hgood | ⟨f, hbad⟩
    · rcases ih with ⟨f, hlater⟩ | hall
      · exact .inl ⟨f, .later hgood hlater⟩
      · exact .inr (List.forall_mem_cons.mpr ⟨hgood, hall⟩)
    · exact .inl ⟨f, .here hbad⟩

theorem bad_file_iff {path : String} {f : Failure} : Bad files (.file path) f ↔
    ∃ fault, files.openFile path = .error fault ∧ f = .error (.io fault) := by
  constructor
  · rintro ⟨hopen⟩
    exact ⟨_, hopen, rfl⟩
  · rintro ⟨fault, hopen, rfl⟩
    exact .unopened hopen

theorem good_file_iff {path : String} :
    Good files (.file path) ↔ ∃ l, files.openFile path = .ok l := by
  constructor
  · rintro ⟨hopen⟩
    exact ⟨_, hopen⟩
  · rintro ⟨l, hopen⟩
    exact .file hopen

theorem firstBad_singleton {f : Failure} : FirstBad files [i] f ↔ Bad files i f := by
  constructor
  · rintro (hbad | ⟨-, ⟨⟩⟩)
    exact hbad
  · exact .here

theorem firstBad_pair {j : TaskInput} {f : Failure} :
    FirstBad files [i, j] f ↔ Bad files i f ∨ Good files i ∧ Bad files j f := by
  constructor
  · rintro (hbad | ⟨hgood, hlater⟩)
    · exact .inl hbad
    · exact .inr ⟨hgood, firstBad_singleton.mp hlater⟩
  · rintro (hbad | ⟨hgood, hbad⟩)
    · exact .here hbad
    · exact .later hgood (.here hbad)

end TaskInput

namespace FileTask

variable {x : Exchange} {files : FileStore} {t : FileTask} {f : Failure} {output : String}

/-- The inputs of a task, in the order in which they are looked at. -/
def inputs : FileTask → List TaskInput
  | .signature basis => [.file basis]
  | .delta described new => [.signature described, .file new]
  | .patched basis changes => [.file basis, .file changes]
  | .received _ basis => [.file basis]

/-- An input of a task is no good, and the failure tells why. -/
def Refused (files : FileStore) (t : FileTask) (f : Failure) : Prop :=
  TaskInput.FirstBad files t.inputs f

/-- All inputs of a task are at hand. -/
def Ready (files : FileStore) (t : FileTask) : Prop := ∀ i ∈ t.inputs, TaskInput.Good files i

/-! ## Streams -/

/-- The stream that a task makes of its inputs, which are read from the store `emptied`. -/
inductive Makes (x : Exchange) (files emptied : FileStore) : FileTask → Bytes → Prop
  | signature {basis : String} {input : Location} {content : Array UInt8} {p : Params} {s : Signature}
      (hopen : files.openFile basis = .ok input) (hread : emptied.content input = .ok content)
      (hp : x.settings.params (files.size input) = .ok p)
      (hs : Signature.ofBytes p content.toList = .ok s) :
      Makes x files emptied (.signature basis) s.encode
  | delta {described new : String} {d input : Location} {stored content : Array UInt8} {p : Params}
      {records : List Bytes} (hopen : files.openFile described = .ok d)
      (hread : files.content d = .ok stored) (hstream : Signature.IsStream p records stored.toList)
      (hnew : files.openFile new = .ok input) (hcontent : emptied.content input = .ok content) :
      Makes x files emptied (.delta described new)
        ((Signature.ofRecords p records).delta content.toList)
  | patched {basis changes : String} {old input : Location} {content : Array UInt8} {file : Bytes}
      (hopen : files.openFile basis = .ok old) (hchanges : files.openFile changes = .ok input)
      (hcontent : emptied.content input = .ok content)
      (hbuilds : emptied.Builds old x.settings.verify content.toList file) :
      Makes x files emptied (.patched basis changes) file
  | received {wire : Reader} {basis : String} {old : Location} {delta file : Bytes}
      (hopen : files.openFile basis = .ok old) (hwire : Frame.flow wire.flow = ⟨delta, .ok ()⟩)
      (hbuilds : emptied.Builds old x.settings.verify delta file) :
      Makes x files emptied (.received wire basis) file

section

variable {emptied : FileStore} {stream : Bytes} {basis described new changes : String}
  {d input old : Location}

theorem makes_signature_iff (hopen : files.openFile basis = .ok input) :
    (signature basis).Makes x files emptied stream ↔
      ∃ content p s, emptied.content input = .ok content ∧
        x.settings.params (files.size input) = .ok p ∧
        Signature.ofBytes p content.toList = .ok s ∧ s.encode = stream := by
  constructor
  · intro hmakes
    cases hmakes with
    | signature hopen' hread hp hs =>
      cases hopen.symm.trans hopen'
      exact ⟨_, _, _, hread, hp, hs, rfl⟩
  · rintro ⟨content, p, s, hread, hp, hs, rfl⟩
    exact .signature hopen hread hp hs

theorem makes_delta_iff {stored : Array UInt8} {p : Params} {records : List Bytes}
    (hopen : files.openFile described = .ok d) (hread : files.content d = .ok stored)
    (hstream : Signature.IsStream p records stored.toList) (hnew : files.openFile new = .ok input) :
    (delta described new).Makes x files emptied stream ↔
      ∃ content, emptied.content input = .ok content ∧
        (Signature.ofRecords p records).delta content.toList = stream := by
  constructor
  · intro hmakes
    cases hmakes with
    | delta hopen' hread' hstream' hnew' hcontent =>
      cases hopen.symm.trans hopen'
      cases hread.symm.trans hread'
      cases hnew.symm.trans hnew'
      -- a stream is that of one signature only
      have hsame := (SignatureLoader.conclude_of_isStream hstream).symm.trans
        (SignatureLoader.conclude_of_isStream hstream')
      exact ⟨_, hcontent, by rw [Except.ok.inj hsame]⟩
  · rintro ⟨content, hcontent, rfl⟩
    exact .delta hopen hread hstream hnew hcontent

theorem makes_patched_iff (hopen : files.openFile basis = .ok old)
    (hchanges : files.openFile changes = .ok input) :
    (patched basis changes).Makes x files emptied stream ↔
      ∃ content, emptied.content input = .ok content ∧
        emptied.Builds old x.settings.verify content.toList stream := by
  constructor
  · intro hmakes
    cases hmakes with
    | patched hopen' hchanges' hcontent hbuilds =>
      cases hopen.symm.trans hopen'
      cases hchanges.symm.trans hchanges'
      exact ⟨_, hcontent, hbuilds⟩
  · rintro ⟨content, hcontent, hbuilds⟩
    exact .patched hopen hchanges hcontent hbuilds

theorem makes_received_iff {wire : Reader} (hopen : files.openFile basis = .ok old) :
    (received wire basis).Makes x files emptied stream ↔
      (Frame.flow wire.flow).ending = .ok () ∧
        emptied.Builds old x.settings.verify (Frame.flow wire.flow).bytes stream := by
  constructor
  · intro hmakes
    cases hmakes with
    | received hopen' hwire hbuilds =>
      cases hopen.symm.trans hopen'
      rw [hwire]
      exact ⟨rfl, hbuilds⟩
  · rintro ⟨hend, hbuilds⟩
    refine .received hopen ?_ hbuilds
    rw [← hend]

end

/-! ## What a task does -/

/-- Carry out a task. -/
def perform (x : Exchange) (files : FileStore) (output : String) :
    FileTask → Except Failure Unit × FileStore
  | .signature basis => uncounted (x.fileSignature files basis output)
  | .delta described new => uncounted (x.fileDelta files described new output)
  | .patched basis changes => uncounted (x.filePatched files basis changes output)
  | .received wire basis => uncounted (x.acceptPatched files wire basis output)

/-- What is left to do when the output is empty, if nothing is wrong with the inputs. -/
def phase (x : Exchange) (files : FileStore) :
    FileTask → Except Failure (FileStore → Except Failure Unit × RawSink)
  | .signature basis =>
    match files.openFile basis with
    | .error fault => .error (TransferError.io fault)
    | .ok input => .ok fun emptied => uncounted
        (x.writeSignature (files.size input) (RawSource.mk (emptied.reader input)) (RawSink.mk {}))
  | .delta described new =>
    match files.openFile described with
    | .error fault => .error (TransferError.io fault)
    | .ok d =>
      match x.readSignature (RawSource.mk (files.reader d)) with
      | .error f => .error f
      | .ok s =>
        match files.openFile new with
        | .error fault => .error (TransferError.io fault)
        | .ok input => .ok fun emptied => uncounted
            (x.writeDelta (.ofSignature s) (RawSource.mk (emptied.reader input)) (RawSink.mk {}))
  | .patched basis changes =>
    match files.openFile basis with
    | .error fault => .error (TransferError.io fault)
    | .ok old =>
      match files.openFile changes with
      | .error fault => .error (TransferError.io fault)
      | .ok input => .ok fun emptied => uncounted
          (x.writePatched (emptied.basis old) (RawSource.mk (emptied.reader input)) (RawSink.mk {}))
  | .received wire basis =>
    match files.openFile basis with
    | .error fault => .error (TransferError.io fault)
    | .ok old => .ok fun emptied => uncounted
        (x.writePatched (emptied.basis old) ({ reader := wire : FramedSource }) (RawSink.mk {}))

/-- **Every task looks at its inputs, empties its output, and writes what its phase leaves there.** -/
theorem perform_eq (x : Exchange) (files : FileStore) (output : String) (t : FileTask) :
    t.perform x files output =
      match t.phase x files with
      | .error f => (.error f, files)
      | .ok run =>
        match files.create output with
        | .error fault => (.error (TransferError.io fault), files)
        | .ok (out, emptied) => ((run emptied).1, emptied.write out (run emptied).2.writer.written) := by
  cases t with
  | signature basis =>
    simp only [perform, phase, Exchange.fileSignature]
    rcases files.openFile basis with fault | input
    · rfl
    · rcases files.create output with fault | ⟨out, emptied⟩ <;> rfl
  | delta described new =>
    simp only [perform, phase, Exchange.fileDelta]
    rcases files.openFile described with fault | d
    · rfl
    dsimp only
    rcases x.readSignature (RawSource.mk (files.reader d)) with f | s
    · rfl
    rcases files.openFile new with fault | input
    · rfl
    · rcases files.create output with fault | ⟨out, emptied⟩ <;> rfl
  | patched basis changes =>
    simp only [perform, phase, Exchange.filePatched]
    rcases files.openFile basis with fault | old
    · rfl
    rcases files.openFile changes with fault | input
    · rfl
    · rcases files.create output with fault | ⟨out, emptied⟩ <;> rfl
  | received wire basis =>
    simp only [perform, phase, Exchange.acceptPatched]
    rcases files.openFile basis with fault | old
    · rfl
    · rcases files.create output with fault | ⟨out, emptied⟩ <;> rfl

/-! ## Tasks that are refused -/

theorem phase_of_refused (h : t.Refused files f) : t.phase x files = .error f := by
  cases t with
  | signature basis =>
    obtain ⟨fault, hopen, rfl⟩ := TaskInput.bad_file_iff.mp (TaskInput.firstBad_singleton.mp h)
    simp only [phase, hopen]
  | delta described new =>
    rcases TaskInput.firstBad_pair.mp h with hbad | ⟨hgood, hbad⟩
    · cases hbad with
      | unopened hopen =>
        rw [TaskInput.path] at hopen
        simp only [phase, hopen]
      | unreadable hopen hread =>
        simp only [phase, hopen, x.readSignature_of_nothing (FileStore.delivers_unreadable hread)]
      | malformed hopen hread hstream =>
        simp only [phase, hopen, x.readSignature_of_malformed hread hstream]
    · obtain ⟨fault, hnew, rfl⟩ := TaskInput.bad_file_iff.mp hbad
      cases hgood with
      | signature hopen hread hstream =>
        simp only [phase, hopen, x.readSignature_of_stream hread hstream, hnew]
  | patched basis changes =>
    rcases TaskInput.firstBad_pair.mp h with hbad | ⟨⟨hopen⟩, hbad⟩
    · obtain ⟨fault, hopen, rfl⟩ := TaskInput.bad_file_iff.mp hbad
      simp only [phase, hopen]
    · obtain ⟨fault, hchanges, rfl⟩ := TaskInput.bad_file_iff.mp hbad
      simp only [phase, hopen, hchanges]
  | received wire basis =>
    obtain ⟨fault, hopen, rfl⟩ := TaskInput.bad_file_iff.mp (TaskInput.firstBad_singleton.mp h)
    simp only [phase, hopen]

/-! ## Tasks that are carried out -/

/-- **With its inputs at hand, a task writes its stream or fails.** -/
theorem phase_of_ready (x : Exchange) (h : t.Ready files) : ∃ run, t.phase x files = .ok run ∧
    ∀ emptied stream, t.Makes x files emptied stream ↔ Wrote (run emptied) stream := by
  cases t with
  | signature basis =>
    obtain ⟨input, hopen⟩ := TaskInput.good_file_iff.mp (h _ (.head _))
    refine ⟨_, by simp only [phase, hopen]; rfl, fun emptied stream => ?_⟩
    rw [makes_signature_iff hopen, x.wrote_signature_iff]
  | delta described new =>
    obtain ⟨input, hnew⟩ := TaskInput.good_file_iff.mp (h _ (.tail _ (.head _)))
    cases h _ (.head _) with
    | signature hopen hread hstream =>
      have hload := x.readSignature_of_stream hread hstream
      refine ⟨_, by simp only [phase, hopen, hload, hnew]; rfl, fun emptied stream => ?_⟩
      rw [makes_delta_iff hopen hread hstream hnew, x.wrote_delta_iff hstream.valid]
  | patched basis changes =>
    obtain ⟨old, hopen⟩ := TaskInput.good_file_iff.mp (h _ (.head _))
    obtain ⟨input, hchanges⟩ := TaskInput.good_file_iff.mp (h _ (.tail _ (.head _)))
    refine ⟨_, by simp only [phase, hopen, hchanges]; rfl, fun emptied stream => ?_⟩
    rw [makes_patched_iff hopen hchanges, x.wrote_patched_file_iff]
  | received wire basis =>
    obtain ⟨old, hopen⟩ := TaskInput.good_file_iff.mp (h _ (.head _))
    have hsource : Source.Delivers ({ reader := wire : FramedSource }) (Frame.flow wire.flow) :=
      FramedSource.Receives.delivers ⟨rfl, rfl, rfl⟩
    refine ⟨_, by simp only [phase, hopen]; rfl, fun emptied stream => ?_⟩
    rw [makes_received_iff hopen, x.wrote_patched_iff FramedSource.bounded hsource]

/-- What is in the output before does not matter, unless it is an input as well. -/
theorem phase_put (h : t.Ready files) {out : Location} (hd : files.entry? out ≠ some .directory)
    (hother : ∀ i ∈ t.inputs, files.openFile i.path ≠ .ok out) (e : Entry) :
    t.phase x (files.put out e) = t.phase x files := by
  have hput : ∀ i ∈ t.inputs, ∀ l, files.openFile i.path = .ok l →
      l ≠ out ∧ FileStore.openFile (files.put out e) i.path = .ok l := by
    intro i hi l hopen
    have hne : l ≠ out := by
      rintro rfl
      exact hother i hi hopen
    exact ⟨hne, FileStore.openFile_put hd e hopen hne⟩
  cases t with
  | signature basis =>
    obtain ⟨input, hopen⟩ := TaskInput.good_file_iff.mp (h _ (.head _))
    obtain ⟨hne, hopen'⟩ := hput _ (.head _) input hopen
    simp only [TaskInput.path] at hopen'
    simp only [phase, hopen, hopen', FileStore.size, FileStore.content_put_of_ne files e hne]
  | delta described new =>
    obtain ⟨input, hnew⟩ := TaskInput.good_file_iff.mp (h _ (.tail _ (.head _)))
    obtain ⟨-, hnew'⟩ := hput _ (.tail _ (.head _)) input hnew
    cases h _ (.head _) with
    | signature hopen _ _ =>
      obtain ⟨hne, hopen'⟩ := hput _ (.head _) _ hopen
      simp only [TaskInput.path] at hopen' hnew'
      simp only [phase, hopen, hopen', hnew, hnew', FileStore.reader,
        FileStore.content_put_of_ne files e hne]
  | patched basis changes =>
    obtain ⟨old, hopen⟩ := TaskInput.good_file_iff.mp (h _ (.head _))
    obtain ⟨input, hchanges⟩ := TaskInput.good_file_iff.mp (h _ (.tail _ (.head _)))
    have hopen' := (hput _ (.head _) old hopen).2
    have hchanges' := (hput _ (.tail _ (.head _)) input hchanges).2
    simp only [TaskInput.path] at hopen' hchanges'
    simp only [phase, hopen, hopen', hchanges, hchanges']
  | received wire basis =>
    obtain ⟨old, hopen⟩ := TaskInput.good_file_iff.mp (h _ (.head _))
    have hopen' := (hput _ (.head _) old hopen).2
    simp only [TaskInput.path] at hopen'
    simp only [phase, hopen, hopen']

/-- **A bad input leaves the files alone, and otherwise the output is replaced.** If an input cannot be
opened, or is no signature although it has to be one, the task fails with that, and no file is made or
changed. Any other task has its inputs at hand. It makes its output empty, unless that cannot be made,
before anything is read but a signature. Whether it succeeds or fails, nothing but the output is changed,
and if that is not an input as well, what it has held before does not matter. The task succeeds just if
there is a stream to be made of its inputs, and then this stream is all that is in the output. -/
theorem spares_or_replaces (x : Exchange) (files : FileStore) (t : FileTask) (output : String) :
    (∀ f, t.Refused files f → t.perform x files output = (.error f, files)) ∧
    ((∃ f, t.Refused files f) ∨ t.Ready files) ∧
    (t.Ready files →
      (∀ fault, files.create output = .error fault →
        t.perform x files output = (.error (.error (.io fault)), files)) ∧
      ∀ out emptied, files.create output = .ok (out, emptied) →
        emptied.content out = .ok #[] ∧
        ∃ result written store, t.perform x files output = (result, store) ∧
          store.content out = .ok written ∧
          (∀ l, l ≠ out → store.entry? l = files.entry? l ∧ emptied.entry? l = files.entry? l) ∧
          (∀ stream, t.Makes x files emptied stream ↔ result = .ok () ∧ written.toList = stream) ∧
          ((∀ i ∈ t.inputs, files.openFile i.path ≠ .ok out) → ∀ before,
            t.perform x (files.put out (.file before)) output = (result, store))) := by
  refine ⟨fun f hrefused => ?_, TaskInput.firstBad_or_good files t.inputs, fun hready => ?_⟩
  · rw [perform_eq, phase_of_refused hrefused]
  obtain ⟨run, hphase, hmakes⟩ := phase_of_ready x hready
  refine ⟨fun fault hcreate => ?_, fun out emptied hcreate => ?_⟩
  · rw [perform_eq, hphase]
    simp only [hcreate]
  obtain ⟨-, hemptied, -⟩ := FileStore.create_eq hcreate
  let written := (run emptied).2.writer.written
  refine ⟨FileStore.content_of_create hcreate, (run emptied).1, written, emptied.write out written,
    ?_, ?_, fun l hl => ?_, fun stream => ?_, fun hother before => ?_⟩
  · rw [perform_eq, hphase]
    simp only [hcreate, written]
  · rw [FileStore.content, FileStore.entry?_write_of_create hcreate]
  · have hkept : emptied.entry? l = files.entry? l := by
      rw [hemptied, FileStore.entry?_put_of_ne files _ hl]
    exact ⟨(FileStore.entry?_put_of_ne emptied _ hl).trans hkept, hkept⟩
  · exact hmakes emptied stream
  · have hphase' := (phase_put hready (FileStore.not_directory_of_create hcreate) hother
      (.file before)).trans hphase
    rw [perform_eq, hphase']
    simp only [FileStore.create_put hcreate before, written]

/-- A file that is no signature, an empty one, and one that is to be written. -/
def shelf : FileStore where
  entries := [(["sig"], .file #[1, 2, 3]), (["new"], .file #[]), (["out"], .file #[9, 9])]
  home := []

theorem spares_or_replaces_shelf :
    (delta "sig" "new").perform .standard shelf "out" =
      (.error (.error (.invalidSignature .endedInHeader)), shelf) ∧
    (patched "gone" "new").perform .standard shelf "fresh" =
      (.error (.error (.io .notFound)), shelf) ∧
    (signature "new").perform .standard shelf "" = (.error (.error (.io .notFound)), shelf) ∧
    ∃ store, (signature "new").perform .standard shelf "out" = (.ok (), store) ∧
      (signature "new").perform .standard (shelf.put ["out"] (.file #[7])) "out" = (.ok (), store) ∧
      store.content ["out"] = .ok (Params.header ⟨256, 6⟩).toArray ∧
      store.entry? ["sig"] = some (.file #[1, 2, 3]) := by
  have hmalformed : ¬ ∃ p records, Signature.IsStream p records [1, 2, 3] := by
    rintro ⟨p, records, hstream⟩
    exact nomatch SignatureLoader.conclude_of_isStream hstream
  have hsig : shelf.openFile "sig" = .ok ["sig"] := by decide +kernel
  have hgone : shelf.openFile "gone" = .error .notFound := by decide +kernel
  have hnew : shelf.openFile "new" = .ok ["new"] := by decide +kernel
  have hready : (signature "new").Ready shelf := by
    rintro i (_ | ⟨_, ⟨⟩⟩)
    exact .file hnew
  refine ⟨(spares_or_replaces .standard shelf _ "out").1 _ (.here (.malformed hsig rfl hmalformed)),
    (spares_or_replaces .standard shelf _ "fresh").1 _ (.here (.unopened hgone)),
    ((spares_or_replaces .standard shelf _ "").2.2 hready).1 _ rfl, ?_⟩
  have hplace : shelf.place "out" = .ok ["out"] := by decide +kernel
  obtain ⟨emptied, hcreate⟩ := FileStore.create_of_content hplace rfl
  have hread : emptied.content ["new"] = .ok #[] :=
    FileStore.content_of_create_of_ne hcreate (by decide)
  have hparams : Exchange.standard.settings.params (shelf.size ["new"]) = .ok ⟨256, 6⟩ := by
    decide +kernel
  have hempty : Signature.ofBytes ⟨256, 6⟩ [] = .ok ⟨⟨256, 6⟩, #[]⟩ := by
    simp [Signature.ofBytes, blocksOf]
  obtain ⟨-, result, written, store, hperform, hout, hothers, hmakes, hbefore⟩ :=
    ((spares_or_replaces .standard shelf _ "out").2.2 hready).2 _ _ hcreate
  have hother : ∀ i ∈ (signature "new").inputs, shelf.openFile i.path ≠ .ok ["out"] := by
    rintro i (_ | ⟨_, ⟨⟩⟩)
    rw [TaskInput.path, hnew]
    decide
  obtain ⟨rfl, hwritten⟩ := (hmakes _).mp (.signature hnew hread hparams hempty)
  refine ⟨store, hperform, hbefore hother _, ?_, (hothers _ (by decide)).1⟩
  have hheader : Signature.encode ⟨⟨256, 6⟩, #[]⟩ = Params.header ⟨256, 6⟩ := by
    simp [Signature.encode]
  rw [hout, ← hheader, ← hwritten]

end FileTask

end BlockSync
