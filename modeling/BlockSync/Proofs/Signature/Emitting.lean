import BlockSync.Proofs.Backlog
import BlockSync.Proofs.Signature.Blocks
import BlockSync.Signature.Emitter

/-!
# Emitting step by step

* `SignatureEmitter.outlook`: what an emitter will put out, told from its state and what is left of
  the file;
* **`SignatureEmitter.lawful`**: an emitter passes on what waits before it takes input, and no step
  changes what it will put out;
* `SignatureEmitter.start_spec`: of a whole file that is the header and the records of its blocks.
-/

namespace BlockSync

namespace SignatureEmitter

variable {p : Params} {e e' : SignatureEmitter}

/-! ## The outlook -/

/-- The records of the blocks of a file. -/
def records (p : Params) (bs : Bytes) : Bytes :=
  (blocksOf p.blockLength.toNat bs).flatMap (blockRecord p)

@[simp] theorem records_nil (p : Params) : records p [] = [] := by
  rw [records, blocksOf, List.flatMap_nil]

/-- An emitter is in the midst of a block. -/
structure Stands (p : Params) (e : SignatureEmitter) : Prop where
  params : e.params = p
  short : e.block.size < p.blockLength.toNat

/-- An emitter is in the midst of a file, or the file has ended. -/
structure Works (p : Params) (b : Bench SignatureEmitter) : Prop where
  stands : Stands p b.state
  ended : b.state.finished = true →
    b.input.ended = true ∧ b.input.content = [] ∧ b.state.block = #[]

/-- What an emitter will put out behind the output that waits. -/
def beyond (p : Params) (e : SignatureEmitter) (rest : Bytes) : Future Unit where
  output := records p (e.block.toList ++ rest)
  refused _ := False
  result := ()

/-- What an emitter will put out. -/
def outlook (p : Params) : Outlook SignatureEmitter Unit where
  Fit := Works p
  future e rest := (beyond p e rest).after e.backlog.pending

/-- The output of an emitter that waits. -/
def backlogged (p : Params) : Backlogged SignatureEmitter Unit where
  backlog e := e.backlog
  put e b := { e with backlog := b }
  finished e := e.finished
  beyond := beyond p

/-! ## Bytes of the file -/

/-- Bytes `bs` were taken, which led from `e` to `e'`. -/
structure Moves (p : Params) (e : SignatureEmitter) (bs : Bytes) (e' : SignatureEmitter) : Prop where
  stands : Stands p e'
  finished : e'.finished = e.finished
  made : ∃ made, e'.backlog.pending = e.backlog.pending ++ made ∧
    ∀ rest, records p (e.block.toList ++ (bs ++ rest)) = made ++ records p (e'.block.toList ++ rest)

theorem Moves.refl (h : Stands p e) : Moves p e [] e :=
  ⟨h, rfl, [], (List.append_nil _).symm, fun _ => rfl⟩

theorem Moves.trans {e'' : SignatureEmitter} {bs cs : Bytes} (h : Moves p e bs e')
    (h' : Moves p e' cs e'') : Moves p e (bs ++ cs) e'' := by
  obtain ⟨made, hp, hr⟩ := h.made
  obtain ⟨more, hp', hr'⟩ := h'.made
  refine ⟨h'.stands, h'.finished.trans h.finished, made ++ more, ?_, fun rest => ?_⟩
  · rw [hp', hp, List.append_assoc]
  · rw [List.append_assoc, hr, hr', List.append_assoc]

/-- The block at hand is complete, and its record waits. -/
theorem pending_closeBlock (h : e.params = p) :
    e.closeBlock.backlog.pending = e.backlog.pending ++ blockRecord p e.block.toList := by
  subst h
  simp only [closeBlock, Backlog.pending_append, BlockSum.record_ofBytes]

theorem absorb_moves (h : Stands p e) (b : UInt8) : Moves p e [b] (e.absorb b) := by
  have hpos : 0 < p.blockLength.toNat := Nat.lt_of_le_of_lt (Nat.zero_le _) h.short
  have hblock : (e.block.push b).toList = e.block.toList ++ [b] := Array.toList_push
  simp only [absorb]
  by_cases hc : (e.block.push b).size = e.params.blockLength.toNat
  · rw [if_pos hc]
    have hlen : (e.block.toList ++ [b]).length = p.blockLength.toNat := by
      rw [← hblock, Array.length_toList, hc, h.params]
    refine ⟨⟨h.params, hpos⟩, rfl, blockRecord p (e.block.toList ++ [b]), ?_, fun rest => ?_⟩
    · rw [pending_closeBlock (e := { e with block := e.block.push b }) h.params, hblock]
    · rw [← List.append_assoc, records, blocksOf_append hpos hlen, List.flatMap_cons]
      rfl
  · rw [if_neg hc]
    have hshort : (e.block.push b).size < p.blockLength.toNat := by
      have := h.short
      rw [h.params] at hc
      rw [Array.size_push] at hc ⊢
      omega
    refine ⟨⟨h.params, hshort⟩, rfl, [], (List.append_nil _).symm, fun rest => ?_⟩
    simp only [hblock, List.append_assoc, List.nil_append]

theorem foldl_absorb_moves (h : Stands p e) (bs : Bytes) : Moves p e bs (bs.foldl absorb e) := by
  induction bs generalizing e with
  | nil => exact Moves.refl h
  | cons b bs ih =>
    have hb := absorb_moves h b
    exact hb.trans (ih hb.stands)

/-- At the end of the file what is left is the last block. -/
theorem endFile_spec (h : Stands p e) (hf : e.finished = false) :
    Stands p e.endFile ∧ e.endFile.finished = true ∧ e.endFile.block = #[] ∧
      e.endFile.backlog.pending = e.backlog.pending ++ records p e.block.toList := by
  have hpos : 0 < p.blockLength.toNat := Nat.lt_of_le_of_lt (Nat.zero_le _) h.short
  rw [endFile, if_neg (by simp [hf])]
  by_cases hb : e.block.isEmpty = true
  · have hnil : e.block = #[] := by simpa using hb
    rw [if_pos hb]
    refine ⟨⟨h.params, h.short⟩, rfl, hnil, ?_⟩
    simp [hnil]
  · have hne : e.block.toList ≠ [] := by simpa using hb
    have hle : e.block.toList.length ≤ p.blockLength.toNat := by
      rw [Array.length_toList]
      exact Nat.le_of_lt h.short
    rw [if_neg hb]
    refine ⟨⟨h.params, hpos⟩, rfl, rfl, ?_⟩
    simp only [pending_closeBlock h.params, records, blocksOf_of_le hne hle, List.flatMap_singleton]

/-! ## Taking input -/

/-- All input is taken, and the end of the file if nothing follows. -/
def takeInput (b : Bench SignatureEmitter) : Bench SignatureEmitter :=
  let input := b.input.drop b.input.length
  let e := b.input.content.foldl absorb b.state
  ⟨if input.atEnd then e.endFile else e, input, b.output⟩

/-- After the end of the file there is nothing to take. -/
theorem takes_finished {b : Bench SignatureEmitter} (h : Works p b)
    (hf : b.state.finished = true) : (backlogged p).Takes (outlook p) b (takeInput b) := by
  obtain ⟨he, hc, hb⟩ := h.ended hf
  have hempty := b.input.content_drop_length
  have hstate : (takeInput b).state = b.state := by
    simp only [takeInput, hc, List.foldl_nil]
    rw [if_pos ((Queue.atEnd_drop_length _).trans he), endFile, if_pos hf]
  have hended : (takeInput b).input.ended = b.input.ended := by simp [takeInput]
  refine ⟨hempty, hended, by simp [takeInput], rfl, fun _ => by rw [hstate]; exact hf,
    ⟨by rw [hstate]; exact h.stands, fun _ => ⟨hended.trans he, hempty, by rw [hstate]; exact hb⟩⟩,
    [], (List.append_nil _).symm, fun rest _ => ?_⟩
  have hcontent : (takeInput b).input.content = [] := hempty
  simp only [Outlook.ahead, hstate, hcontent, hc, Future.after_nil]

/-- The file goes on: the bytes that have arrived are taken. -/
theorem takes_midst {b : Bench SignatureEmitter} (h : Works p b) (hf : b.state.finished = false)
    (he : b.input.ended = false) : (backlogged p).Takes (outlook p) b (takeInput b) := by
  have hm := foldl_absorb_moves h.stands b.input.content
  have hempty : (takeInput b).input.content = [] := b.input.content_drop_length
  have hended : (takeInput b).input.ended = b.input.ended := by simp [takeInput]
  have hstate : (takeInput b).state = b.input.content.foldl absorb b.state := by
    refine if_neg ?_
    rw [Queue.atEnd_drop_length, he]
    exact Bool.false_ne_true
  have hfin : (takeInput b).state.finished = false := by rw [hstate, hm.finished, hf]
  obtain ⟨made, hp, hr⟩ := hm.made
  refine ⟨hempty, hended, by simp [takeInput], rfl, fun hc => ?_,
    ⟨by rw [hstate]; exact hm.stands, fun hc => ?_⟩, [], (List.append_nil _).symm, fun rest _ => ?_⟩
  · rw [hended, he] at hc
    cases hc
  · rw [hfin] at hc
    cases hc
  · simp only [Outlook.ahead, outlook, beyond, Future.after, hempty, hstate, hr, hp, List.nil_append,
      List.append_assoc]

/-- The file ends behind the bytes that have arrived. -/
theorem takes_last {b : Bench SignatureEmitter} (h : Works p b) (hf : b.state.finished = false)
    (he : b.input.ended = true) : (backlogged p).Takes (outlook p) b (takeInput b) := by
  have hm := foldl_absorb_moves h.stands b.input.content
  obtain ⟨hs, hfin, hblock, hpending⟩ := endFile_spec hm.stands (hm.finished.trans hf)
  have hempty : (takeInput b).input.content = [] := b.input.content_drop_length
  have hended : (takeInput b).input.ended = b.input.ended := by simp [takeInput]
  have hstate : (takeInput b).state = (b.input.content.foldl absorb b.state).endFile :=
    if_pos ((Queue.atEnd_drop_length _).trans he)
  obtain ⟨made, hp, hr⟩ := hm.made
  refine ⟨hempty, hended, by simp [takeInput], rfl, fun _ => by rw [hstate]; exact hfin,
    ⟨by rw [hstate]; exact hs, fun _ => ⟨hended.trans he, hempty, by rw [hstate]; exact hblock⟩⟩,
    [], (List.append_nil _).symm, fun rest hrest => ?_⟩
  obtain rfl := hrest he
  have hnow := hr []
  rw [List.append_nil, List.append_nil] at hnow
  simp only [Outlook.ahead, outlook, beyond, Future.after, hempty, hstate, hblock, hpending, hp, hnow,
    records_nil, List.append_nil, List.nil_append, List.append_assoc]

theorem takeInput_takes {b : Bench SignatureEmitter} (h : Works p b) :
    (backlogged p).Takes (outlook p) b (takeInput b) := by
  cases hf : b.state.finished with
  | true => exact takes_finished h hf
  | false =>
    cases he : b.input.ended with
    | true => exact takes_last h hf he
    | false => exact takes_midst h hf he

/-! ## Steps -/

theorem step_of_waiting {b : Bench SignatureEmitter}
    (h : (backlogged p).pending ((backlogged p).poured b).state ≠ []) :
    step b = (backlogged p).poured b := by
  have hw : (!(b.state.backlog.pour b.output).1.isEmpty) = true := (Backlog.waits_iff _).mpr h
  unfold step
  dsimp only
  rw [if_pos hw]
  rfl

theorem step_of_poured {b : Bench SignatureEmitter}
    (h : (backlogged p).pending ((backlogged p).poured b).state = []) :
    step b = (backlogged p).poured (takeInput ((backlogged p).poured b)) := by
  have hw : ¬ (!(b.state.backlog.pour b.output).1.isEmpty) = true :=
    fun hc => (Backlog.waits_iff _).mp hc h
  unfold step
  dsimp only
  rw [if_neg hw]
  rfl

theorem lawful (p : Params) : (backlogged p).Lawful (outlook p) where
  backlog_put _ _ := rfl
  finished_put _ _ := rfl
  beyond_put _ _ := rfl
  future _ _ := rfl
  fit_poured h := ⟨⟨h.stands.params, h.stands.short⟩, h.ended⟩
  fit_served {b c fed taken} h hv :=
    { stands := by
        rw [hv.state]
        exact h.stands
      ended := fun hf => by
        rw [hv.state] at hf ⊢
        obtain ⟨he, hc, hb⟩ := h.ended hf
        obtain ⟨rfl, he'⟩ := hv.ended he
        exact ⟨he', by rw [hv.input, hc]; rfl, hb⟩ }
  finished {b} h hf := by
    obtain ⟨he, hc, hb⟩ := h.ended hf
    refine ⟨he, ?_, fun _ => id⟩
    change records p (b.state.block.toList ++ b.input.content) = []
    rw [hb, hc, List.append_nil, records_nil]
  waits {b} h hp := by
    have hstatus : ((backlogged p).poured b).state.status = .blocked := by
      refine if_neg fun hc => hp ?_
      exact (Backlog.isEmpty_iff _).mp ((Bool.and_eq_true ..).mp hc).2
    change (Except.ok (step b).state.status, step b) = _
    rw [step_of_waiting hp, hstatus]
  goes {b} h hp := by
    refine ⟨_, takeInput_takes ⟨⟨h.stands.params, h.stands.short⟩, h.ended⟩, ?_⟩
    change (Except.ok (step b).state.status, step b) = _
    rw [step_of_poured hp]
    rfl

/-! ## From the start of a file -/

/-- Only lengths that are valid are begun with. -/
theorem valid_of_start (h : start p = .ok e) : p.Valid := by
  apply (Params.check_iff p).mp
  rcases hc : p.check with f | ⟨⟩
  · simp [start, hc, bind, Except.bind] at h
  · rfl

/-- What an emitter will put out of a whole file is the header and the records of its blocks. -/
theorem start_spec (hp : p.Valid) :
    ∃ e, start p = .ok e ∧ (outlook p).Tells e ∧ ∀ file, (outlook p).future e file =
      { output := p.header ++ records p file, refused := fun _ => False, result := () } := by
  have hpos : 0 < p.blockLength.toNat := Nat.lt_of_lt_of_le (by decide) hp.le_blockLength
  refine ⟨⟨p, #[], 0, Backlog.empty.append p.header, false⟩, ?_, fun input output _ => ?_,
    fun file => ?_⟩
  · simp only [start, (Params.check_iff p).mpr hp]
    rfl
  · exact ⟨⟨rfl, hpos⟩, fun hf => nomatch hf⟩
  · have hpending : (Backlog.empty.append p.header).pending = p.header := by
      rw [Backlog.pending_append, Backlog.pending_empty, List.nil_append]
    simp only [outlook, beyond, Future.after, hpending]
    rfl

/-- The records of a file are within the bound on the output. -/
theorem length_records_le (hp : p.Valid) (file : Bytes) :
    (p.header ++ records p file).length ≤ outputBound file.length := by
  have hrecord : p.recordLength ≤ 4 + digestLength := Nat.add_le_add_left hp.strongLength_le 4
  have hblocks := length_blocksOf_le p.blockLength.toNat file
  have hlen : (records p file).length =
      (blocksOf p.blockLength.toNat file).length * p.recordLength := length_flatMap_blockRecord hp _
  rw [List.length_append, Params.length_header, hlen, outputBound, Nat.mul_comm (4 + digestLength)]
  exact Nat.add_le_add_left (Nat.mul_le_mul (Nat.le_succ_of_le hblocks) hrecord) _

end SignatureEmitter

end BlockSync
