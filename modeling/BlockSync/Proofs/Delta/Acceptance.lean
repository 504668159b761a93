import BlockSync.Proofs.Delta.Patching

/-!
# Which deltas are accepted

* `Offence`, `firstOffence`: what is wrong with a byte string that is taken for a delta, and which
  of it comes first;
* `firstOffence_eq_none_iff`: nothing is wrong with the deltas of a file, and only with them;
* **`Patcher.accepts_exactly`**: a patcher accepts those and writes their file, whatever the
  capacities and however the delta arrives, and refuses every other byte string for its first
  offence.
-/

namespace BlockSync

/-- What can be wrong with a delta. -/
inductive Offence where
  /-- It is not a sequence of instructions between a mark and a closing. -/
  | corrupted
  | copyOutOfBounds
  | checksumMismatch
deriving DecidableEq, Repr

/-- The offence of which an error tells. -/
def TransferError.offence : TransferError → Option Offence
  | .corruptedDelta _ => some .corrupted
  | .copyOutOfBounds _ _ _ => some .copyOutOfBounds
  | .checksumMismatch _ _ => some .checksumMismatch
  | _ => none

/-- The first offence of a delta that is read to an end, if `actual` is the digest of what was
built. -/
def Ending.offence (verify : Bool) (actual : Digest) : Ending → Option Offence
  | .closed checksum trailing =>
    if verify && checksum != actual then some .checksumMismatch
    else if trailing = [] then none else some .corrupted
  | .compared trailing => if trailing = [] then none else some .corrupted
  | .refused cause => cause.offence

/-- The first offence of a delta against a basis. -/
def firstOffence (basis : Bytes) (verify : Bool) (delta : Bytes) : Option Offence :=
  let r := readDelta basis delta
  r.ending.offence verify (Blake3.hash r.output)

/-! ## Endings -/

/-- How reading a delta may end: at its closing, or with an offence. -/
def Ending.Proper : Ending → Prop
  | .closed _ _ => True
  | .compared _ => False
  | .refused cause => cause.offence ≠ none

/-- A delta is refused for its first offence. -/
theorem Ending.offence_of_refuses {verify : Bool} {actual : Digest} {ending : Ending} {f : Failure}
    (hp : ending.Proper) (h : ending.refuses verify actual f) :
    ∃ (e : TransferError) (o : Offence), f = .error e ∧ e.offence = some o ∧
      ending.offence verify actual = some o := by
  cases ending with
  | closed checksum trailing =>
    simp only [refuses] at h
    by_cases hd : (verify && checksum != actual) = true
    · rw [if_pos hd] at h
      exact ⟨_, .checksumMismatch, h, rfl, by rw [offence, if_pos hd]⟩
    · rw [if_neg hd] at h
      obtain ⟨n, hpos, hle, rfl⟩ := h
      have hne : trailing ≠ [] := List.ne_nil_of_length_pos (by omega)
      exact ⟨_, .corrupted, rfl, rfl, by rw [offence, if_neg hd, if_neg hne]⟩
  | compared trailing => exact hp.elim
  | refused cause =>
    obtain ⟨o, ho⟩ := Option.ne_none_iff_exists'.mp hp
    exact ⟨cause, o, h, ho, ho⟩

/-- A delta with an offence can be refused. -/
theorem Ending.exists_refuses {verify : Bool} {actual : Digest} {ending : Ending}
    (h : ending.offence verify actual ≠ none) : ∃ f, ending.refuses verify actual f := by
  cases ending with
  | closed checksum trailing =>
    simp only [offence] at h
    simp only [refuses]
    by_cases hd : (verify && checksum != actual) = true
    · exact ⟨.error (.checksumMismatch checksum.bytes actual.bytes), by rw [if_pos hd]⟩
    · rw [if_neg hd] at h
      have hne : trailing ≠ [] := fun hn => h (if_pos hn)
      refine ⟨.error (.corruptedDelta (.trailingBytes trailing.length)), ?_⟩
      rw [if_neg hd]
      exact ⟨_, List.length_pos_iff.mpr hne, Nat.le_refl _, rfl⟩
  | compared trailing =>
    have hne : trailing ≠ [] := fun hn => h (if_pos hn)
    exact ⟨_, trailing.length, List.length_pos_iff.mpr hne, Nat.le_refl _, rfl⟩
  | refused cause => exact ⟨_, rfl⟩

theorem readInstructions_proper (basis bs : Bytes) : (readInstructions basis bs).ending.Proper := by
  have hearly : Reading.early.ending.Proper := by simp [Reading.early, Reading.refused, Ending.Proper,
    TransferError.offence]
  induction bs using readInstructions.induct basis with
  | case1 => rw [readInstructions]; exact hearly
  | case2 bs hl => rw [readInstructions_copy, readCopy, if_pos hl]; exact hearly
  | case3 bs offset length hl hw =>
    rename_i ih
    rw [readInstructions_copy, readCopy, if_neg hl, if_pos hw]
    exact ih
  | case4 bs offset length hl =>
    rename_i hw
    rw [readInstructions_copy, readCopy, if_neg hl, if_neg hw]
    simp [Reading.refused, Ending.Proper, TransferError.offence]
  | case5 bs hl => rw [readInstructions_insert, readInsertion, if_pos hl]; exact hearly
  | case6 bs length hl hb =>
    rw [readInstructions_insert, readInsertion, if_neg hl, readInserted,
      if_pos (by rw [List.length_drop]; omega)]
    exact hearly
  | case7 bs length hl hb hne =>
    rename_i ih
    rw [readInstructions_insert, readInsertion, if_neg hl, readInserted,
      if_neg (by rw [List.length_drop]; omega), List.drop_drop]
    exact ih
  | case8 bs hl => rw [readInstructions_close, readClosing, if_pos hl]; exact hearly
  | case9 bs hl => rw [readInstructions_close, readClosing, if_neg hl]; trivial
  | case10 code bs hc hi hcl =>
    rw [readInstructions_cons, if_neg hc, if_neg hi, if_neg hcl]
    simp [Reading.refused, Ending.Proper, TransferError.offence]

theorem readDelta_proper (basis bs : Bytes) : (readDelta basis bs).ending.Proper := by
  unfold readDelta
  split
  · simp [Reading.early, Reading.refused, Ending.Proper, TransferError.offence]
  · split
    · exact readInstructions_proper basis _
    · simp [Reading.refused, Ending.Proper, TransferError.offence]

/-- **Nothing is wrong with the deltas of a file, and only with them.** -/
theorem firstOffence_eq_none_iff (basis : Bytes) (verify : Bool) (delta file : Bytes) :
    firstOffence basis verify delta = none ∧ file = (readDelta basis delta).output ↔
      IsDelta basis verify delta file := by
  constructor
  · rintro ⟨h, rfl⟩
    have hp := readDelta_proper basis delta
    unfold firstOffence at h
    rcases hr : readDelta basis delta with ⟨out, ⟨checksum, trailing⟩ | trailing | cause⟩ <;>
      rw [hr] at h hp
    · simp only [Ending.offence] at h
      by_cases hd : (verify && checksum != Blake3.hash out) = true
      · rw [if_pos hd] at h
        cases h
      · rw [if_neg hd] at h
        obtain rfl : trailing = [] := by
          by_cases ht : trailing = []
          · exact ht
          · rw [if_neg ht] at h
            cases h
        obtain ⟨is, his, hdelta, hout⟩ := (readDelta_closed_iff ..).mp hr
        refine ⟨is, checksum, his, hdelta, hout, fun hv => ?_⟩
        simpa [hv] using hd
    · exact hp.elim
    · exact absurd h hp
  · rintro ⟨is, checksum, his, hdelta, hfile, hv⟩
    have hr := (readDelta_closed_iff basis delta file checksum).mpr ⟨is, his, hdelta, hfile⟩
    have hd : ¬ (verify && checksum != Blake3.hash file) = true := by
      intro hc
      obtain ⟨hvt, hne⟩ : verify = true ∧ checksum ≠ Blake3.hash file := by simpa using hc
      exact hne (hv hvt)
    refine ⟨?_, by rw [hr]⟩
    simp only [firstOffence, hr, Ending.offence]
    rw [if_neg hd]
    exact if_pos trivial

/-! ## How much is built -/

theorem Reading.length_after (r : Reading) (bs : Bytes) :
    (r.after bs).output.length = bs.length + r.output.length := by
  rw [after, List.length_append]

/-- At most a copy of the whole basis is built for every byte. -/
theorem length_readInstructions_le (basis bs : Bytes) :
    (readInstructions basis bs).output.length ≤ (basis.length + 1) * bs.length := by
  have hmul : ∀ {a n m : Nat}, a ≤ basis.length + 1 → n ≤ m →
      a + (basis.length + 1) * n ≤ (basis.length + 1) * (m + 1) := by
    intro a n m ha hn
    have := Nat.mul_le_mul_left (basis.length + 1) hn
    rw [Nat.mul_succ]
    omega
  induction bs using readInstructions.induct basis with
  | case1 => rw [readInstructions]; exact Nat.zero_le _
  | case2 bs hl => rw [readInstructions_copy, readCopy, if_pos hl]; exact Nat.zero_le _
  | case3 bs offset length hl hw =>
    rename_i ih
    rw [readInstructions_copy, readCopy, if_neg hl, if_pos hw, Reading.length_after]
    have ht : ((basis.drop offset).take length).length ≤ basis.length + 1 := by
      rw [List.length_take, List.length_drop]
      omega
    refine Nat.le_trans (Nat.add_le_add_left ih _) (hmul ht ?_)
    rw [List.length_drop]
    omega
  | case4 bs offset length hl =>
    rename_i hw
    rw [readInstructions_copy, readCopy, if_neg hl, if_neg hw]
    exact Nat.zero_le _
  | case5 bs hl => rw [readInstructions_insert, readInsertion, if_pos hl]; exact Nat.zero_le _
  | case6 bs length hl hb =>
    rw [readInstructions_insert, readInsertion, if_neg hl, readInserted,
      if_pos (by rw [List.length_drop]; omega), Reading.length_after]
    refine Nat.le_trans ?_ (Nat.le_mul_of_pos_left _ (Nat.succ_pos _))
    rw [List.length_drop, List.length_cons]
    exact Nat.le_trans (Nat.sub_le _ _) (Nat.le_succ _)
  | case7 bs length hl hb hne =>
    rename_i ih
    rw [readInstructions_insert, readInsertion, if_neg hl, readInserted,
      if_neg (by rw [List.length_drop]; omega), List.drop_drop, Reading.length_after]
    have ht : ((bs.drop 4).take length).length = length := by
      rw [List.length_take, List.length_drop]
      omega
    have hsplit := Nat.mul_le_mul_left (basis.length + 1)
      (show length + (bs.drop (4 + length)).length ≤ bs.length + 1 by rw [List.length_drop]; omega)
    have hone : length ≤ (basis.length + 1) * length := Nat.le_mul_of_pos_left _ (Nat.succ_pos _)
    calc ((bs.drop 4).take length).length +
          (readInstructions basis (bs.drop (4 + length))).output.length
        ≤ length + (basis.length + 1) * (bs.drop (4 + length)).length :=
          Nat.add_le_add (Nat.le_of_eq ht) ih
      _ ≤ (basis.length + 1) * (length + (bs.drop (4 + length)).length) := by
          rw [Nat.mul_add]
          exact Nat.add_le_add_right hone _
      _ ≤ (basis.length + 1) * (insertOpcode :: bs).length := hsplit
  | case8 bs hl => rw [readInstructions_close, readClosing, if_pos hl]; exact Nat.zero_le _
  | case9 bs hl => rw [readInstructions_close, readClosing, if_neg hl]; exact Nat.zero_le _
  | case10 code bs hc hi hcl =>
    rw [readInstructions_cons, if_neg hc, if_neg hi, if_neg hcl]
    exact Nat.zero_le _

theorem length_readDelta_le (basis bs : Bytes) :
    (readDelta basis bs).output.length ≤ (basis.length + 1) * bs.length := by
  unfold readDelta
  split
  · exact Nat.zero_le _
  · split
    · refine Nat.le_trans (length_readInstructions_le basis _) (Nat.mul_le_mul_left _ ?_)
      rw [List.length_drop]
      omega
    · exact Nat.zero_le _

/-! ## What a patcher accepts -/

/-- What is to be expected of a patcher that is to read all of a delta. -/
def Reading.future (r : Reading) (verify : Bool) : Future Nat where
  output := r.output
  refused := r.ending.refuses verify (Blake3.hash r.output)
  result := r.output.length

namespace Patcher

variable {σ κ β ω : Type} [Basis β] {Holds : β → Bytes → Prop} {Taken : κ → Bytes → Bool → Prop}
  {basis delta : Bytes} {stored : β} {verify : Bool}

/-- What is to be expected of a patch from a basis that may fail. -/
theorem tells_of_start {p : Patcher β} (hb : Basis.Flaky Holds) (hh : Holds stored basis)
    (h : start stored verify = .ok p) : (outlook Holds basis).Tells p ∧
      ∀ delta, (outlook Holds basis).future p delta = (readDelta basis delta).future verify := by
  obtain ⟨size, hs, rfl⟩ := start_eq h
  obtain ⟨hholds, hsize⟩ := hb.size hh
  obtain rfl := hsize size hs
  refine ⟨fun input output _ => ⟨hholds, rfl, (by decide : 0 < deltaMark.length)⟩, fun delta => ?_⟩
  simp only [outlook, reading, foresee, Field.empty, List.nil_append, Nat.zero_add]
  rfl

/-- What is to be expected of a patch of a basis: all that is built before the delta is closed or
refused. -/
theorem start_spec (hb : Basis.Faithful Holds) (h : Holds stored basis) (verify : Bool) :
    ∃ p, start stored verify = .ok p ∧ (outlook Holds basis).Tells p ∧
      (∀ n, p.outputBound n = (basis.length + 1) * n) ∧
      ∀ delta, (outlook Holds basis).future p delta = (readDelta basis delta).future verify := by
  obtain ⟨stored', hsize, -⟩ := hb.size h
  have hstart : start stored verify =
      .ok ⟨stored', basis.length, verify, .mark, .empty, .empty, 0⟩ := by rw [start, hsize]
  obtain ⟨htells, hfuture⟩ := tells_of_start hb.flaky h hstart
  exact ⟨_, hstart, htells, fun _ => rfl, hfuture⟩

/-- How a run of a patcher over a delta ends, and what its sink holds then. -/
def Verdict (Taken : κ → Bytes → Bool → Prop) (basis : Bytes) (verify : Bool) (delta : Bytes) :
    Except Failure PipeTotals × Run σ (Patcher β) κ ω → Prop
  | (.ok _, r) => firstOffence basis verify delta = none ∧
      Taken r.sink (readDelta basis delta).output true ∧
      r.bench.state.written = (readDelta basis delta).output.length
  | (.error f, r) => ∃ (e : TransferError) (o : Offence), f = .error e ∧ e.offence = some o ∧
      firstOffence basis verify delta = some o ∧
      ∃ taken, taken <+: (readDelta basis delta).output ∧ Taken r.sink taken false

theorem verdict_of_result {p : Patcher β}
    {outcome : Except Failure PipeTotals × Run σ (Patcher β) κ ω}
    (h : Run.Result Taken true (outlook Holds basis) p ((readDelta basis delta).future verify)
      (.ok ()) outcome) : Verdict Taken basis verify delta outcome := by
  have hp := readDelta_proper basis delta
  obtain ⟨f | totals, r⟩ := outcome
  · obtain ⟨hrefused, htaken⟩ := h
    have hr : (readDelta basis delta).ending.refuses verify
        (Blake3.hash (readDelta basis delta).output) f :=
      hrefused.resolve_left fun ⟨_, _, hc⟩ => nomatch hc
    obtain ⟨e, o, he, heo, ho⟩ := Ending.offence_of_refuses hp hr
    exact ⟨e, o, he, heo, ho, htaken⟩
  · obtain ⟨-, hnone, -, hsettled, hresult, htaken⟩ := h
    refine ⟨?_, htaken rfl, ?_⟩
    · by_contra hne
      obtain ⟨f, hfail⟩ := Ending.exists_refuses hne
      exact hnone f hfail
    · change _ = ((readDelta basis delta).future verify).result
      rw [← hresult]
      have hnil : (r.bench.state.reading basis (r.bench.input.content ++ [])).output = [] :=
        hsettled.1
      simp only [Outlook.ahead, outlook, foresee, hnil, List.length_nil, Nat.add_zero]

variable [Source σ] [Sink κ]

/-- **A patcher accepts exactly the deltas against its basis.** It writes the file of a delta, and
every other byte string it refuses for its first offence, with a part of what is built before that
written; whatever the capacities of its queues, and however the byte string arrives. -/
theorem accepts_exactly {takenLimit : Nat} (hsink : Sink.Faithful Taken true takenLimit)
    (hb : Basis.Shows stored basis) (verify : Bool) {source : σ}
    (hs : Source.Delivers source ⟨delta, .ok ()⟩) {sink : κ} (hk : Taken sink [] false)
    {inputCapacity outputCapacity : Nat} (hi : 0 < inputCapacity) (ho : 0 < outputCapacity)
    (hl : outputCapacity ≤ takenLimit) (look : ω → Event → ω) (watcher : ω) :
    ∃ p, start stored verify = .ok p ∧
      ∀ limit, Pipe.iterationsFor delta.length (p.outputBound delta.length) ≤ limit →
        let run := (⟨source, ⟨p, .ofCapacity inputCapacity, .ofCapacity outputCapacity⟩, sink,
          .zero, watcher⟩ : Run σ (Patcher β) κ ω).complete look limit
        ((∃ totals, run.1 = .ok totals) ↔ ∃ file, IsDelta basis verify delta file) ∧
        (∀ file, IsDelta basis verify delta file →
          Taken run.2.sink file true ∧ run.2.bench.state.written = file.length) ∧
        ((¬ ∃ file, IsDelta basis verify delta file) → ∃ (e : TransferError) (o : Offence),
          run.1 = .error (.error e) ∧ e.offence = some o ∧
          firstOffence basis verify delta = some o ∧
          ∃ taken, taken <+: (readDelta basis delta).output ∧ Taken run.2.sink taken false) := by
  obtain ⟨Holds, hb, hstored⟩ := hb
  obtain ⟨Delivering, hsource, hs⟩ := hs
  obtain ⟨p, hp, htells, hbound, hfuture⟩ := start_spec hb hstored verify
  refine ⟨p, hp, fun limit hn => ?_⟩
  have hfollows : Run.Follows (⟨Delivering, Taken, true, takenLimit⟩ : Ends σ κ) p ⟨delta, .ok ()⟩
      (⟨source, ⟨p, .ofCapacity inputCapacity, .ofCapacity outputCapacity⟩, sink, .zero, watcher⟩ :
        Run σ (Patcher β) κ ω) [] [] :=
    Run.follows_start (Queue.content_ofCapacity _) (Queue.content_ofCapacity _) rfl hs hk
      (by rwa [Queue.capacity_ofCapacity])
      fun _ => by rw [Queue.capacity_ofCapacity]; exact ⟨ho, hl⟩
  have hlen := length_readDelta_le basis delta
  have hresult := Run.complete_spec look ⟨hsource, hsink⟩ (sound hb) htells prompt
    (fun hc => by cases hc) hfollows (.inl ⟨Queue.content_ofCapacity _, rfl⟩) (by
      rw [Pipe.iterationsFor, hbound] at hn
      simp only [hfuture, Reading.future]
      exact Nat.le_trans (by omega) (Nat.le_add_right limit _))
  rw [hfuture] at hresult
  have hv := verdict_of_result hresult
  have hiff := firstOffence_eq_none_iff basis verify delta
  intro run
  change Verdict Taken basis verify delta run at hv
  rcases run with ⟨f | totals, r⟩
  · obtain ⟨e, o, rfl, heo, hfirst, htaken⟩ := hv
    have hno : ¬ ∃ file, IsDelta basis verify delta file := fun ⟨file, h⟩ => by
      have hnone := ((hiff file).mpr h).1
      rw [hfirst] at hnone
      cases hnone
    refine ⟨⟨(fun ⟨_, h⟩ => nomatch h), fun h => absurd h hno⟩, fun file h => absurd ⟨file, h⟩ hno,
      fun _ => ⟨e, o, rfl, heo, hfirst, htaken⟩⟩
  · obtain ⟨hnone, htaken, hwritten⟩ := hv
    have hsome : IsDelta basis verify delta (readDelta basis delta).output :=
      (hiff _).mp ⟨hnone, rfl⟩
    refine ⟨⟨fun _ => ⟨_, hsome⟩, fun _ => ⟨totals, rfl⟩⟩, fun file h => ?_,
      fun h => absurd ⟨_, hsome⟩ h⟩
    rw [((hiff file).mpr h).2]
    exact ⟨htaken, hwritten⟩

/-- A delta that copies the end of a basis and inserts a byte, byte for byte. -/
theorem accepts_exactly_copy :
    let basis : Bytes := [1, 2, 3]
    let file : Bytes := [2, 3, 9]
    let delta := deltaMark ++ [.copy 1 2, .insert [9]].flatMap Instruction.encode ++
      (Instruction.close (.ofInitial [])).encode
    ∃ p, start (⟨basis.toArray⟩ : StoredBasis) false = .ok p ∧
      let run := (⟨⟨.ofBytes delta⟩, ⟨p, .ofCapacity 1, .ofCapacity 1⟩, ⟨{}⟩, .zero, ()⟩ :
        Run RawSource (Patcher StoredBasis) RawSink Unit).complete (fun w _ => w)
          (Pipe.iterationsFor delta.length (p.outputBound delta.length))
      (∃ totals, run.1 = .ok totals) ∧ run.2.sink.writer.written.toList = file ∧
        run.2.bench.state.written = 3 := by
  intro basis file delta
  have hdelta : IsDelta basis false delta file :=
    ⟨[.copy 1 2, .insert [9]], .ofInitial [], by simp [basis, Instruction.Sized, Instruction.Within],
      rfl, rfl, nofun⟩
  obtain ⟨p, hp, hrun⟩ := accepts_exactly (RawSink.faithful [] 1) (StoredBasis.shows basis) false
    (RawSource.delivers_ofBytes delta) RawSink.holds_new (Nat.le_refl 1) (Nat.le_refl 1)
    (Nat.le_refl 1) (fun (w : Unit) _ => w) ()
  obtain ⟨hiff, hfile, -⟩ := hrun _ (Nat.le_refl _)
  exact ⟨p, hp, hiff.mpr ⟨file, hdelta⟩, (hfile file hdelta).1.2, (hfile file hdelta).2⟩

end Patcher

end BlockSync
