import BlockSync.Proofs.Backlog
import BlockSync.Proofs.Delta.Encoder
import BlockSync.Proofs.Signature.Params

/-!
# Encoding step by step

* `DeltaEncoder.outlook`: what an encoder will put out, told from its state and what is left of the
  file;
* **`DeltaEncoder.lawful`**: an encoder passes on what waits before it takes input, and no step
  changes what it will put out;
* **`DeltaEncoder.output_of_schedule`**: whatever the order of steps, none fails, and an encoder that
  is done has put out the delta of the file that it was fed.
-/

namespace BlockSync

namespace DeltaEncoder

variable {s : Signature} {e e' : DeltaEncoder}

/-! ## The outlook -/

/-- The instructions that are still to be issued. -/
def remaining (s : Signature) (e : DeltaEncoder) (rest : Bytes) : List Instruction :=
  if e.finished then [] else left s e rest

/-- An encoder is in the midst of a file, or the file has ended. -/
structure Works (s : Signature) (b : Bench DeltaEncoder) : Prop where
  stands : b.state.finished = false → ∃ run window, Stands s b.state run window
  ended : b.state.finished = true → b.input.ended = true ∧ b.input.content = []

/-- What an encoder will put out behind the output that waits. -/
def beyond (s : Signature) (e : DeltaEncoder) (rest : Bytes) : Future DeltaTotals where
  output := (remaining s e rest).flatMap Instruction.encode
  refused _ := False
  result := (remaining s e rest).foldl DeltaTotals.add e.totals

/-- What an encoder will put out. -/
def outlook (s : Signature) : Outlook DeltaEncoder DeltaTotals where
  Fit := Works s
  future e rest := (beyond s e rest).after e.backlog.pending

/-- The output of an encoder that waits. -/
def backlogged (s : Signature) : Backlogged DeltaEncoder DeltaTotals where
  backlog e := e.backlog
  put e b := { e with backlog := b }
  finished e := e.finished
  beyond := beyond s

/-! ## Taking input -/

theorem takeBytes_of_stands {run window : Bytes} (h : Stands s e run window) (bs : Bytes) :
    e.takeBytes bs = (.ok (), bs.foldl absorb e) := by
  have hpos : e.index.blockLength ≠ 0 := fun h0 => by
    have hb : s.blockLength = e.index.blockLength.toNat := by rw [h.index]; rfl
    have := h.short
    rw [hb, h0] at this
    simp at this
  rw [takeBytes, if_pos hpos]

/-- The file goes on: the bytes that have arrived are taken. -/
theorem takes_midst {b : Bench DeltaEncoder} {run window : Bytes}
    (h : Stands s b.state run window) (he : b.input.ended = false) :
    b.state.takeInput b.input =
        (.ok (), b.input.content.foldl absorb b.state, b.input.drop b.input.length) ∧
      (backlogged s).Takes (outlook s) b
        ⟨b.input.content.foldl absorb b.state, b.input.drop b.input.length, b.output⟩ := by
  have hempty := b.input.content_drop_length
  have hended : (b.input.drop b.input.length).ended = false := by simpa using he
  have hend : ¬ (b.input.drop b.input.length).atEnd = true := by
    rw [Queue.atEnd_drop_length, he]
    exact Bool.false_ne_true
  obtain ⟨⟨run', window', hs'⟩, -, is, hp, ht, hl⟩ := foldl_absorb_moves h b.input.content
  refine ⟨?_, ?_⟩
  · rw [takeInput, if_neg (by simp [h.finished]), takeBytes_of_stands h]
    simp only [if_neg hend]
  · refine ⟨hempty, by simp, by simp, rfl, fun hc => ?_, ⟨fun _ => ⟨run', window', hs'⟩,
      fun hc => ?_⟩, [], (List.append_nil _).symm, fun rest _ => ?_⟩
    · rw [hended] at hc
      cases hc
    · rw [hs'.finished] at hc
      cases hc
    · simp only [Outlook.ahead, outlook, beyond, Future.after, hempty, List.nil_append, remaining,
        h.finished, hs'.finished, Bool.false_eq_true, if_false, hl, hp, ht, List.flatMap_append,
        List.foldl_append, List.append_assoc]

/-- The file ends behind the bytes that have arrived. -/
theorem takes_last {b : Bench DeltaEncoder} {run window : Bytes} (h : Stands s b.state run window)
    (he : b.input.ended = true) :
    ∃ e', b.state.takeInput b.input = (.ok (), e', b.input.drop b.input.length) ∧
      (backlogged s).Takes (outlook s) b ⟨e', b.input.drop b.input.length, b.output⟩ := by
  have hempty := b.input.content_drop_length
  have hended : (b.input.drop b.input.length).ended = true := by simpa using he
  have hend : (b.input.drop b.input.length).atEnd = true := (Queue.atEnd_drop_length _).trans he
  obtain ⟨⟨run', window', hs'⟩, -, is, hp, ht, hl⟩ := foldl_absorb_moves h b.input.content
  obtain ⟨e', hend', hfin, -, hp', ht'⟩ := endFile_issued hs'
  refine ⟨e', ?_, hempty, by simp, by simp, rfl, fun _ => hfin,
    ⟨fun hc => ?_, fun _ => ⟨hended, hempty⟩⟩, [], (List.append_nil _).symm, fun rest hr => ?_⟩
  · rw [takeInput, if_neg (by simp [h.finished]), takeBytes_of_stands h]
    simp only [if_pos hend, hend']
  · rw [hfin] at hc
    cases hc
  · obtain rfl := hr he
    have hnow := hl []
    rw [List.append_nil] at hnow
    simp only [Outlook.ahead, outlook, beyond, Future.after, List.append_nil, remaining, h.finished,
      hfin, Bool.false_eq_true, if_false, if_true, hnow, hp', ht', hp, ht, List.flatMap_append,
      List.foldl_append, List.append_assoc, List.flatMap_nil, List.foldl_nil, List.nil_append]

/-- All input is taken, and the end of the file if nothing follows. -/
theorem takeInput_takes {b : Bench DeltaEncoder} (h : Works s b) :
    ∃ e' input, b.state.takeInput b.input = (.ok (), e', input) ∧
      (backlogged s).Takes (outlook s) b ⟨e', input, b.output⟩ := by
  cases hf : b.state.finished with
  | true =>
    refine ⟨b.state, b.input, by rw [takeInput, if_pos hf], ?_⟩
    exact ⟨(h.ended hf).2, rfl, rfl, rfl, fun _ => hf, h, Outlook.Keeps.refl _ b⟩
  | false =>
    obtain ⟨run, window, hs⟩ := h.stands hf
    cases he : b.input.ended with
    | false => exact ⟨_, _, takes_midst hs he⟩
    | true =>
      obtain ⟨e', ht⟩ := takes_last hs he
      exact ⟨e', _, ht⟩

/-! ## Steps -/

theorem step_of_waiting {b : Bench DeltaEncoder}
    (h : (backlogged s).pending ((backlogged s).poured b).state ≠ []) :
    step b = (.ok .blocked, (backlogged s).poured b) := by
  have hw : (!(b.state.backlog.pour b.output).1.isEmpty) = true := (Backlog.waits_iff _).mpr h
  unfold step
  dsimp only
  rw [if_pos hw]
  rfl

theorem step_of_poured {b : Bench DeltaEncoder} {input : Queue}
    (h : (backlogged s).pending ((backlogged s).poured b).state = [])
    (ht : ((backlogged s).poured b).state.takeInput b.input = (.ok (), e', input)) :
    let c : Bench DeltaEncoder := ⟨e', input, ((backlogged s).poured b).output⟩
    step b = (.ok ((backlogged s).status ((backlogged s).poured c).state),
      (backlogged s).poured c) := by
  have hw : ¬ (!(b.state.backlog.pour b.output).1.isEmpty) = true :=
    fun hc => (Backlog.waits_iff _).mp hc h
  have ht' : ({ b.state with backlog := (b.state.backlog.pour b.output).1 } :
      DeltaEncoder).takeInput b.input = (.ok (), e', input) := ht
  unfold step
  dsimp only
  rw [if_neg hw, ht']
  rfl

theorem works_poured {b : Bench DeltaEncoder} (h : Works s b) :
    Works s ((backlogged s).poured b) where
  stands hf := by
    obtain ⟨run, window, hs⟩ := h.stands hf
    exact ⟨run, window, ⟨hs.buffer, hs.length⟩, hs.index, hs.finished, hs.short, hs.last⟩
  ended := h.ended

theorem lawful (s : Signature) : (backlogged s).Lawful (outlook s) where
  backlog_put _ _ := rfl
  finished_put _ _ := rfl
  beyond_put _ _ := rfl
  future _ _ := rfl
  fit_poured := works_poured
  fit_served {b c fed taken} h hv :=
    { stands := fun hf => by
        rw [hv.state] at hf ⊢
        exact h.stands hf
      ended := fun hf => by
        rw [hv.state] at hf
        obtain ⟨he, hc⟩ := h.ended hf
        obtain ⟨rfl, he'⟩ := hv.ended he
        exact ⟨he', by rw [hv.input, hc]; rfl⟩ }
  finished {b} h hf := by
    refine ⟨(h.ended hf).1, ?_, fun _ => id⟩
    have hf' : b.state.finished = true := hf
    change (remaining s b.state b.input.content).flatMap Instruction.encode = []
    rw [remaining, if_pos hf']
    rfl
  waits _ := step_of_waiting
  goes {b} h hp := by
    obtain ⟨e', input, ht, htakes⟩ := takeInput_takes (works_poured h)
    exact ⟨_, htakes, step_of_poured hp ht⟩

/-! ## From the start of a file -/

theorem stands_start (h : 0 < s.blockLength) : Stands s (start (.ofSignature s)) [] [] where
  buffer := rfl
  length := rfl
  index := rfl
  finished := rfl
  short := h
  last _ _ hl := nomatch hl

theorem tells_start (h : 0 < s.blockLength) : (outlook s).Tells (start (.ofSignature s)) :=
  fun _ _ _ =>
    { stands := fun _ => ⟨[], [], stands_start h⟩
      ended := fun hf => nomatch hf }

/-- What an encoder will put out of a whole file is its delta. -/
theorem future_start (s : Signature) (file : Bytes) :
    (outlook s).future (start (.ofSignature s)) file =
      { output := s.delta file
        refused := fun _ => False
        result := (s.instructions file).foldl DeltaTotals.add .zero } := by
  have hr : remaining s (start (.ofSignature s)) file = s.instructions file := by
    have hs : (start (.ofSignature s)).Shows [] [] := ⟨rfl, rfl⟩
    rw [remaining, if_neg (by simp [start]), left_eq hs]
    rfl
  have hp : (start (.ofSignature s)).backlog.pending = deltaMark := by
    simp [start, Backlog.pending_append]
  simp only [outlook, beyond, hr, hp]
  rfl

/-- **Whatever the order of steps, none fails, and an encoder that is done has put out the delta of
the file that it was fed.** Until then it has put out the beginning of that delta, however the file
goes on, and once the file has ended it can be stepped until it is done. -/
theorem output_of_schedule (hs : s.params.check = .ok ()) {fed taken : Bytes}
    {result : Except Failure Status} {b : Bench DeltaEncoder}
    (h : Schedule (start (.ofSignature s)) fed taken result b) :
    (∃ status, result = .ok status) ∧
      (result = .ok .done →
        b.input.ended = true ∧ taken ++ b.output.content = s.delta fed) ∧
      (∀ rest, (b.input.ended = true → rest = []) →
        taken ++ b.output.content <+: s.delta (fed ++ rest)) ∧
      (b.input.ended = true → ∃ more c,
        Schedule (start (.ofSignature s)) fed (taken ++ more) (.ok .done) c) := by
  have hpos : 0 < s.blockLength := by
    have := ((Params.check_iff _).mp hs).le_blockLength
    rw [Signature.blockLength]; omega
  have ht := tells_start hpos
  cases result with
  | error c =>
    exact absurd (Schedule.refused_of_error (lawful s).sound ht h [] fun _ => rfl).2 id
  | ok status =>
    refine ⟨⟨status, rfl⟩, fun hd => ?_, fun rest hr => ?_, (lawful s).exists_done ht h⟩
    · obtain rfl := Except.ok.inj hd
      obtain ⟨he, hsettled, -⟩ := Schedule.settled_of_done (lawful s).sound ht h
      have hf := Schedule.future_of_done (lawful s).sound ht h
      rw [future_start] at hf
      refine ⟨he, ?_⟩
      have := congrArg Future.output hf
      simp only [Future.after] at this
      rw [this, hsettled, List.append_nil]
    · have hf := Schedule.future_eq (lawful s).sound ht h rest hr
      rw [future_start] at hf
      exact ⟨_, (congrArg Future.output hf).symm⟩

/-- A file that arrives in two parts, with a step between them and room for one byte of output. -/
theorem output_of_schedule_mixed :
    twoBlocks.instructions mixedFile = [.copy 0 64, .insert [9], .copy 0 128, .insert [7, 7, 7],
      .close (Blake3.hash mixedFile)] ∧
    ∃ taken b, Schedule (start (.ofSignature twoBlocks)) mixedFile taken (.ok .done) b ∧
      taken ++ b.output.content = twoBlocks.delta mixedFile := by
  have hs : twoBlocks.params.check = .ok () := rfl
  refine ⟨by rw [Signature.instructions, body_mixedFile]; rfl, ?_⟩
  let first : Bench DeltaEncoder :=
    { state := start (.ofSignature twoBlocks)
      input := (Queue.ofCapacity 100).append (mixedFile.take 100)
      output := .ofCapacity 1 }
  have h : Schedule (start (.ofSignature twoBlocks)) (mixedFile.take 100) [] (.ok .blocked) first :=
    (Schedule.start (Queue.content_ofCapacity 100) (Queue.content_ofCapacity 1)).served
      ⟨rfl, by decide +kernel, nofun, rfl⟩
  let second := (Transducer.step first).2
  have hstep : Schedule (start (.ofSignature twoBlocks)) (mixedFile.take 100) [] (.ok .blocked)
      second := h.stepped rfl
  have hopen : second.input.ended = false := by decide +kernel
  let rest := second.input.content ++ mixedFile.drop 100
  have hserved : second.Served
      ⟨second.state, ((Queue.ofCapacity rest.length).append rest).finish, second.output⟩
      (mixedFile.drop 100) [] :=
    { state := rfl
      input := by
        rw [Queue.content_finish, Queue.content_append, Queue.content_ofCapacity, List.nil_append,
          Queue.room_of_empty _ (Queue.content_ofCapacity _), Queue.capacity_ofCapacity,
          List.take_length]
      ended := fun he => absurd he (by rw [hopen]; exact Bool.false_ne_true)
      output := rfl }
  have hall := hstep.served hserved
  rw [List.take_append_drop] at hall
  obtain ⟨-, -, -, hmore⟩ := output_of_schedule hs hall
  obtain ⟨more, b, hd⟩ := hmore rfl
  exact ⟨_, b, hd, ((output_of_schedule hs hd).2.1 rfl).2⟩

end DeltaEncoder

end BlockSync
