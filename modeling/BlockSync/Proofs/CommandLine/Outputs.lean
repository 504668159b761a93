import BlockSync.CommandLine.Run
import BlockSync.Proofs.Files.Exchange
import BlockSync.Proofs.Files.Path

/-!
# Outputs that nobody has named

A command that is not told where to write derives that from one of its inputs. Nothing compares the
two, so that an input can be the output as well; then it is emptied before it is read.

* `Command.run_signature`, `Command.run_delta`, `Command.run_patch`: what commands do to the files;
* `Command.changesOnly`: a command changes nothing but its output;
* `Command.lost_signature`, `Command.lost_delta`, `Command.lost_patch`: what an input holds at the end
  that is the output as well;
* **`Command.kept_or_lost`**: which inputs are kept, and what becomes of the others.
-/

namespace BlockSync.CommandLine

open FileStore

namespace Command

variable {files : FileStore} {options : TransferOptions} {x : Exchange} {l : Location}
  {content : Array UInt8}

/-! ## What commands do to the files -/

theorem run_signature (hx : options.exchange true = .ok x) (files : FileStore) (basis : String)
    (output : Option String) : ((signature basis output options).run files).2 =
      (x.fileSignature files basis (output.getD (Path.replaceExtension basis "sig"))).2 := by
  delta run
  simp only [hx, Command.output, Option.getD_some]
  rcases x.fileSignature files basis (output.getD (Path.replaceExtension basis "sig")) with
    ⟨f | totals, files'⟩ <;> rfl

theorem run_delta (hx : options.exchange true = .ok x) (files : FileStore) (described file : String)
    (output : Option String) : ((delta described file output options).run files).2 =
      (x.fileDelta files described file (output.getD (Path.replaceExtension file "delta"))).2 := by
  delta run
  simp only [hx, Command.output, Option.getD_some]
  rcases x.fileDelta files described file (output.getD (Path.replaceExtension file "delta")) with
    ⟨f | totals, files'⟩ <;> rfl

theorem run_patch {verify : Bool} (hx : options.exchange verify = .ok x) (files : FileStore)
    (basis changes : String) (output : Option String) :
    ((patch basis changes output verify options).run files).2 =
      (x.filePatched files basis changes
        (output.getD (Path.withSuffix basis Path.newFileSuffix))).2 := by
  delta run
  simp only [hx, Command.output, Option.getD_some]
  rcases x.filePatched files basis changes (output.getD (Path.withSuffix basis Path.newFileSuffix)) with
    ⟨f | n, files'⟩ <;> rfl

/-- **A command changes nothing but its output**, whether it succeeds or fails. -/
theorem changesOnly (c : Command) (files : FileStore)
    (h : ∀ output, c.output = some output → files.place output ≠ .ok l) :
    entry? (c.run files).2 l = files.entry? l := by
  cases c with
  | serve file bind port options =>
    delta run
    dsimp only
    cases options.exchange true <;> rfl
  | fetch file host port suffix verify options =>
    delta run
    dsimp only
    cases options.exchange verify <;> rfl
  | signature basis output options =>
    cases hx : options.exchange true with
    | error e =>
      delta run
      simp only [hx]
    | ok x =>
      rw [run_signature hx]
      exact x.changesOnly_fileSignature files basis _ l (h _ rfl)
  | delta described file output options =>
    cases hx : options.exchange true with
    | error e =>
      delta run
      simp only [hx]
    | ok x =>
      rw [run_delta hx]
      exact x.changesOnly_fileDelta files described file _ l (h _ rfl)
  | patch basis changes output verify options =>
    cases hx : options.exchange verify with
    | error e =>
      delta run
      simp only [hx]
    | ok x =>
      rw [run_patch hx]
      exact x.changesOnly_filePatched files basis changes _ l (h _ rfl)

/-! ## Inputs that are lost -/

/-- A basis that is the output holds the signature of an empty file at the end. -/
theorem lost_signature (hx : options.exchange true = .ok x) {basis : String}
    (hopen : files.openFile basis = .ok l) (hc : files.content l = .ok content)
    (hplace : files.place (Path.replaceExtension basis "sig") = .ok l) :
    ∃ p, x.settings.params content.size = .ok p ∧
      entry? ((signature basis none options).run files).2 l = some (.file p.header.toArray) := by
  obtain ⟨emptied, hcreate⟩ := create_of_content hplace hc
  have hempty := content_of_create hcreate
  have hsize : files.size l = content.size := by simp only [FileStore.size, hc]
  obtain ⟨p, hp, hv⟩ := Exchange.params_spec hx content.size
  obtain ⟨s, hs, hwritten⟩ := x.fileSignature_eq hopen hcreate hempty (hsize ▸ hp) hv
  have hheader : s.encode = p.header := by
    rw [Signature.encode_ofBytes hs, ← SignatureEmitter.records, SignatureEmitter.records_nil,
      List.append_nil]
  refine ⟨p, hp, ?_⟩
  rw [run_signature hx, Option.getD_none, hwritten, entry?_write_of_create hcreate, hheader]

/-- The delta is that of an empty file if the new file is the output, and in place of the signature if
that is. -/
theorem lost_delta (hx : options.exchange true = .ok x) {described file : String} {d i : Location}
    {stored : Array UInt8} {s : Signature} (hdescribed : files.openFile described = .ok d)
    (hd : files.content d = .ok stored) (hs : x.readSignature (RawSource.mk (files.reader d)) = .ok s)
    (hopen : files.openFile file = .ok i) (hi : files.content i = .ok content)
    (hplace : files.place (Path.replaceExtension file "delta") = .ok l) (hl : l = d ∨ l = i) :
    entry? ((delta described file none options).run files).2 l =
      some (.file (s.delta (if i = l then [] else content.toList)).toArray) := by
  have hcontent : ∃ c, files.content l = .ok c := by
    rcases hl with rfl | rfl
    · exact ⟨stored, hd⟩
    · exact ⟨content, hi⟩
  obtain ⟨c, hc⟩ := hcontent
  obtain ⟨emptied, hcreate⟩ := create_of_content hplace hc
  have hread : emptied.content i = .ok (if i = l then #[] else content) := by
    split
    · next heq => rw [heq, content_of_create hcreate]
    · next hne => rw [content_of_create_of_ne hcreate hne, hi]
  rw [run_delta hx, Option.getD_none, x.fileDelta_eq hdescribed hd hs hopen hcreate hread,
    entry?_write_of_create hcreate]
  split <;> rfl

/-- A delta that is the output is empty at the end. -/
theorem lost_patch {verify : Bool} (hx : options.exchange verify = .ok x) {basis changes : String}
    {old : Location} {stored : Array UInt8} (hopen : files.openFile basis = .ok old)
    (hold : files.content old = .ok stored) (hdelta : files.openFile changes = .ok l)
    (hc : files.content l = .ok content)
    (hplace : files.place (Path.withSuffix basis Path.newFileSuffix) = .ok l) :
    entry? ((patch basis changes none verify options).run files).2 l = some (.file #[]) := by
  obtain ⟨emptied, hcreate⟩ := create_of_content hplace hc
  have hbasis : ∃ bs, emptied.content old = .ok bs := by
    by_cases heq : old = l
    · exact ⟨_, heq ▸ content_of_create hcreate⟩
    · exact ⟨stored, by rw [content_of_create_of_ne hcreate heq, hold]⟩
  obtain ⟨bs, hbs⟩ := hbasis
  obtain ⟨taken, htaken, hwritten⟩ :=
    x.filePatched_eq hopen hdelta hcreate hbs (content_of_create hcreate)
  -- nothing can be read from an empty delta
  obtain rfl : taken = [] := List.prefix_nil.mp htaken
  rw [run_patch hx, Option.getD_none, hwritten, entry?_write_of_create hcreate]

/-! ## Which inputs are kept -/

/-- **An input is kept unless the output leads to it, and no more than that is true.** What the words of
a command line do leaves everything as it is but what is at the output. An output that is not named is
the path of the basis or of the new file just if that has the extension already, and of the basis of a
patch never; but it can be the path of the delta, or that of a signature. An input to which it leads is
lost: a basis is replaced by the signature of an empty file, a new file by the delta of an empty file,
a signature by the delta, and nothing is left of a delta. -/
theorem kept_or_lost (files : FileStore) :
    (∀ words l, (∀ c output, Command.ofWords words = .ok c → c.output = some output →
      files.place output ≠ .ok l) → entry? (runWords words files).2 l = files.entry? l) ∧
    (∀ path directory name options, Path.Splits path directory name →
      ((signature path none options).output = some path ↔
        ∃ base, base ≠ [] ∧ name = base ++ ".sig".toList) ∧
      ∀ described, ((delta described path none options).output = some path ↔
        ∃ base, base ≠ [] ∧ name = base ++ ".delta".toList)) ∧
    (∀ basis changes verify options,
      (patch basis changes none verify options).output ≠ some basis ∧
      ((patch basis changes none verify options).output = some changes ↔ changes = basis ++ ".new")) ∧
    (∀ basis options x l content, options.exchange true = .ok x → files.openFile basis = .ok l →
      files.content l = .ok content → files.place (Path.replaceExtension basis "sig") = .ok l →
        ∃ p, x.settings.params content.size = .ok p ∧
          entry? ((signature basis none options).run files).2 l = some (.file p.header.toArray)) ∧
    (∀ described file options x d i l s stored content, options.exchange true = .ok x →
      files.openFile described = .ok d → files.content d = .ok stored →
      x.readSignature (RawSource.mk (files.reader d)) = .ok s → files.openFile file = .ok i →
      files.content i = .ok content → files.place (Path.replaceExtension file "delta") = .ok l →
      (l = d ∨ l = i) →
        entry? ((delta described file none options).run files).2 l =
          some (.file (s.delta (if i = l then [] else content.toList)).toArray)) ∧
    (∀ basis changes verify options x old l stored content, options.exchange verify = .ok x →
      files.openFile basis = .ok old → files.content old = .ok stored →
      files.openFile changes = .ok l → files.content l = .ok content →
      files.place (Path.withSuffix basis Path.newFileSuffix) = .ok l →
        entry? ((patch basis changes none verify options).run files).2 l = some (.file #[])) := by
  refine ⟨?_, ?_, ?_, ?_, ?_, ?_⟩
  · intro words l houtput
    unfold runWords
    split
    · next c hc => exact c.changesOnly files fun output => houtput c output hc
    · rfl
  · intro path directory name options hsplits
    refine ⟨?_, fun described => ?_⟩
    · rw [Command.output, Option.getD_none, Option.some_inj]
      exact Path.replaceExtension_eq_self_iff hsplits (by decide)
    · rw [Command.output, Option.getD_none, Option.some_inj]
      exact Path.replaceExtension_eq_self_iff hsplits (by decide)
  · intro basis changes verify options
    rw [Command.output, Option.getD_none, ne_eq, Option.some_inj, Option.some_inj]
    exact ⟨Path.withSuffix_ne_self (by decide), eq_comm⟩
  · intro basis options x l content hx hopen hc hplace
    exact lost_signature hx hopen hc hplace
  · intro described file options x d i l s stored content hx hdescribed hd hs hopen hi hplace hl
    exact lost_delta hx hdescribed hd hs hopen hi hplace hl
  · intro basis changes verify options x old l stored content hx hopen hold hdelta hc hplace
    exact lost_patch hx hopen hold hdelta hc hplace

/-- Files of which each is named by an output. -/
def namesakes : FileStore where
  entries := [(["b.sig"], .file #[1, 2, 3]), (["a"], .file #[7]), (["a.new"], .file #[68]),
    (["x.delta"], .file (Params.header ⟨256, 6⟩).toArray), (["x"], .file #[9])]
  home := []

theorem kept_or_lost_namesakes :
    Command.ofWords ["patch", "a", "a.new"] = .ok (patch "a" "a.new" none true {}) ∧
    entry? (runWords ["patch", "a", "a.new"] namesakes).2 ["a"] = some (.file #[7]) ∧
    entry? ((patch "a" "a.new" none true {}).run namesakes).2 ["a.new"] = some (.file #[]) ∧
    (signature "b.sig" none {}).output = some "b.sig" ∧
    (∃ p, Exchange.standard.settings.params 3 = .ok p ∧
      entry? ((signature "b.sig" none {}).run namesakes).2 ["b.sig"] = some (.file p.header.toArray)) ∧
    entry? ((delta "x.delta" "x" none {}).run namesakes).2 ["x.delta"] =
      some (.file ((⟨⟨256, 6⟩, #[]⟩ : Signature).delta [9]).toArray) := by
  obtain ⟨hkept, hnames, -, hsignature, hdelta, hpatch⟩ := kept_or_lost namesakes
  have hwords : Command.ofWords ["patch", "a", "a.new"] = .ok (patch "a" "a.new" none true {}) := by
    decide +kernel
  have hsplits : Path.Splits "b.sig" [] "b.sig".toList :=
    ⟨rfl, by decide, by decide, by decide, .inl rfl⟩
  have hbase : ∃ base, base ≠ [] ∧ "b.sig".toList = base ++ ".sig".toList :=
    ⟨['b'], by decide, by decide⟩
  refine ⟨hwords, ?_, ?_, (hnames _ _ _ {} hsplits).1.mpr hbase, ?_, ?_⟩
  · rw [hkept]
    · decide +kernel
    · intro c output hc houtput
      rw [hwords] at hc
      cases hc
      cases houtput
      decide +kernel
  · exact hpatch "a" "a.new" true {} Exchange.standard ["a"] ["a.new"] #[7] #[68] rfl
      (by decide +kernel) (by decide +kernel) (by decide +kernel) (by decide +kernel)
      (by decide +kernel)
  · exact hsignature "b.sig" {} Exchange.standard ["b.sig"] #[1, 2, 3] rfl (by decide +kernel)
      (by decide +kernel) (by decide +kernel)
  · exact hdelta "x.delta" "x" {} Exchange.standard ["x.delta"] ["x"] ["x.delta"] _
      (Params.header ⟨256, 6⟩).toArray #[9] rfl (by decide +kernel) (by decide +kernel)
      (by decide +kernel) (by decide +kernel) (by decide +kernel) (by decide +kernel) (.inl rfl)

/-- The basis "b.sig" is its own output, and is not what it was when its signature has been written. -/
theorem basis_not_kept :
    Command.ofWords ["signature", "b.sig"] = .ok (signature "b.sig" none {}) ∧
    (signature "b.sig" none {}).output = some "b.sig" ∧
    namesakes.find "b.sig" = .ok ["b.sig"] ∧
    namesakes.entry? ["b.sig"] = some (.file #[1, 2, 3]) ∧
    (runWords ["signature", "b.sig"] namesakes).1 =
      ⟨0, "Generated signature: b.sig (12 bytes)\n", ""⟩ ∧
    entry? (runWords ["signature", "b.sig"] namesakes).2 ["b.sig"] =
      some (.file #[0x44, 0x53, 0x49, 0x47, 0, 0, 1, 0, 0, 0, 0, 6]) := by
  decide +kernel

end Command

end BlockSync.CommandLine
