import BlockSync.Proofs.Pipe
import BlockSync.Proofs.Signature.Format
import BlockSync.Signature.Loader

/-!
# Loading step by step

* `SignatureLoader.absorb_append`: it does not matter how a stream is cut into pieces;
* `SignatureLoader.conclude`, `SignatureLoader.outlook`: what a loader makes of the rest of a stream;
* **`SignatureLoader.sound`**, **`SignatureLoader.prompt`**: no step changes it, and a loader waits
  only for input;
* `SignatureLoader.absorb_header`, `SignatureLoader.absorb_record`: fields may arrive in parts;
* **`SignatureLoader.conclude_of_isStream`**, **`SignatureLoader.conclude_cases`**: of a stream it makes
  the signature in its records, and any other byte string it refuses for what is wrong with it;
* `SignatureLoader.conclude_of_canonical`, `SignatureLoader.conclude_encode`: of the stream of a canonical
  signature, as that of a file is, it makes that signature.
-/

namespace BlockSync

namespace SignatureLoader

variable {l l' : SignatureLoader} {field bs : Bytes} {done : Bool} {p : Params}
  {blocks : Array BlockSum}

/-! ## Byte by byte -/

theorem absorb_nil (l : SignatureLoader) : l.absorb [] = (.ok (), l, 0) := by rw [absorb]

theorem absorb_header_cons (h : field.length < signatureHeaderLength) (b : UInt8) (bs : Bytes) :
    absorb ⟨field, none, done⟩ (b :: bs) =
      if (field ++ [b]).length = signatureHeaderLength then
        match Params.ofHeader (field ++ [b]) with
        | .error e => (.error e, ⟨field ++ [b], none, done⟩, bs.length)
        | .ok params => absorb ⟨[], some ⟨params, #[]⟩, done⟩ bs
      else absorb ⟨field ++ [b], none, done⟩ bs := by
  rw [absorb]
  exact if_neg (Nat.not_le_of_gt h)

theorem absorb_record_cons (b : UInt8) (bs : Bytes) :
    absorb ⟨field, some ⟨p, blocks⟩, done⟩ (b :: bs) =
      if (field ++ [b]).length = p.recordLength then
        absorb ⟨[], some ⟨p, blocks.push (.ofRecord (UInt32.ofNat blocks.size) (field ++ [b]))⟩,
          done⟩ bs
      else absorb ⟨field ++ [b], some ⟨p, blocks⟩, done⟩ bs := by
  rw [absorb]

/-- A header is not complete before it is looked at. -/
def Reads (l : SignatureLoader) : Prop := l.signature = none → l.field.length < signatureHeaderLength

theorem reads_start : Reads start := fun _ => (by decide : 0 < signatureHeaderLength)

/-- What a byte leads to: more bytes, or a refusal whatever follows. -/
theorem absorb_cons (h : Reads l) (b : UInt8) :
    (∃ l', Reads l' ∧ ∀ bs, l.absorb (b :: bs) = l'.absorb bs) ∨
      ∃ e l', ∀ bs, l.absorb (b :: bs) = (.error e, l', bs.length) := by
  obtain ⟨field, _ | ⟨p, blocks⟩, done⟩ := l
  · have hlt : field.length < signatureHeaderLength := h rfl
    by_cases hc : (field ++ [b]).length = signatureHeaderLength
    · cases hp : Params.ofHeader (field ++ [b]) with
      | error e =>
        exact .inr ⟨e, _, fun bs => by rw [absorb_header_cons hlt, if_pos hc, hp]⟩
      | ok p =>
        exact .inl ⟨⟨[], some ⟨p, #[]⟩, done⟩, nofun,
          fun bs => by rw [absorb_header_cons hlt, if_pos hc, hp]⟩
    · refine .inl ⟨⟨field ++ [b], none, done⟩, fun _ => ?_,
        fun bs => by rw [absorb_header_cons hlt, if_neg hc]⟩
      rw [List.length_append, List.length_singleton] at hc
      simp only [List.length_append, List.length_singleton]
      omega
  · by_cases hc : (field ++ [b]).length = p.recordLength
    · exact .inl ⟨⟨[], some ⟨p, _⟩, done⟩, nofun, fun bs => by rw [absorb_record_cons, if_pos hc]⟩
    · exact .inl ⟨⟨field ++ [b], some ⟨p, blocks⟩, done⟩, nofun,
        fun bs => by rw [absorb_record_cons, if_neg hc]⟩

/-- **It does not matter how a stream is cut into pieces.** -/
theorem absorb_append (h : Reads l) (bs : Bytes) :
    (∃ l', l.absorb bs = (.ok (), l', 0) ∧ Reads l' ∧ ∀ cs, l.absorb (bs ++ cs) = l'.absorb cs) ∨
      ∃ e l' n, l.absorb bs = (.error e, l', n) ∧ n ≤ bs.length ∧
        ∀ cs, l.absorb (bs ++ cs) = (.error e, l', n + cs.length) := by
  induction bs generalizing l with
  | nil => exact .inl ⟨l, absorb_nil l, h, fun _ => rfl⟩
  | cons b bs ih =>
    rcases absorb_cons h b with ⟨l', hl', hb⟩ | ⟨e, l', hb⟩
    · rcases ih hl' with ⟨l'', hok, hl'', happ⟩ | ⟨e, l'', n, herr, hn, happ⟩
      · exact .inl ⟨l'', by rw [hb, hok], hl'', fun cs => by rw [List.cons_append, hb, happ]⟩
      · exact .inr ⟨e, l'', n, by rw [hb, herr], Nat.le_succ_of_le hn,
          fun cs => by rw [List.cons_append, hb, happ]⟩
    · exact .inr ⟨e, l', bs.length, hb bs, Nat.le_succ _,
        fun cs => by rw [List.cons_append, hb, List.length_append]⟩

/-! ## The outlook -/

/-- What a loader makes of the rest of a stream. -/
def conclude (l : SignatureLoader) (rest : Bytes) : Except TransferError Signature :=
  match l.absorb rest with
  | (.error e, _, _) => .error e
  | (.ok (), l, _) =>
    match l.close with
    | (.error e, _) => .error e
    | (.ok _, l) => l.result

/-- What becomes of a loader. It puts nothing out. -/
def outlook : Outlook SignatureLoader (Except TransferError Signature) where
  Fit b := Reads b.state
  future l rest := ⟨[], fun f => ∃ e, l.conclude rest = .error e ∧ f = .error e, l.conclude rest⟩

theorem tells_start : outlook.Tells start := fun _ _ _ => reads_start

theorem conclude_nil (l : SignatureLoader) :
    l.conclude [] = match l.close with
      | (.error e, _) => .error e
      | (.ok _, l) => l.result := by
  rw [conclude, absorb_nil]

theorem close_cases (l : SignatureLoader) :
    (∃ e, l.close = (.error e, l)) ∨
      (l.close = (.ok .done, { l with done := true }) ∧ ∃ s, l.signature = some s ∧ l.field = []) := by
  obtain ⟨_ | ⟨b, field⟩, _ | s, done⟩ := l
  · exact .inl ⟨_, rfl⟩
  · exact .inr ⟨rfl, s, rfl, rfl⟩
  · exact .inl ⟨_, rfl⟩
  · exact .inl ⟨_, rfl⟩

/-! ## Steps -/

/-- How a step ends when all that has arrived is read. -/
theorem step_of_absorb {b : Bench SignatureLoader}
    (h : b.state.absorb b.input.content = (.ok (), l, 0)) :
    step b = if b.input.ended = true then
        (l.close.1, ⟨l.close.2, b.input.drop b.input.length, b.output⟩)
      else (.ok .blocked, ⟨l, b.input.drop b.input.length, b.output⟩) := by
  simp only [step, h, Nat.sub_zero, Queue.atEnd_drop_length]

theorem step_of_absorb_error {b : Bench SignatureLoader} {e : TransferError} {n : Nat}
    (h : b.state.absorb b.input.content = (.error e, l, n)) :
    step b = (.error e, ⟨l, b.input.drop (b.input.length - n), b.output⟩) := by
  simp only [step, h]

theorem respects_step {b : Bench SignatureLoader} (h : Reads b.state) :
    outlook.Respects b ((step b).1.mapError .error) (step b).2 := by
  rcases absorb_append h b.input.content with ⟨l, hok, hl, happ⟩ | ⟨e, l, n, herr, -, happ⟩
  · rw [step_of_absorb hok]
    have hempty := b.input.content_drop_length
    have hconclude : ∀ rest, b.state.conclude (b.input.content ++ rest) = l.conclude rest :=
      fun rest => by rw [conclude, happ]; rfl
    by_cases he : b.input.ended = true
    · rw [if_pos he]
      rcases close_cases l with ⟨e, hclose⟩ | ⟨hclose, s, hs, hf⟩
      · rw [hclose]
        refine .of_error ⟨[], (List.append_nil _).symm, fun rest hr => ⟨List.nil_prefix, e, ?_, rfl⟩⟩
          (by simp) (by simp) rfl
        rw [hr he, hconclude, conclude_nil, hclose]
      · rw [hclose]
        have hdone : ∀ d, ({ l with done := d } : SignatureLoader).conclude [] = .ok s := fun d => by
          rw [conclude_nil]
          simp [close, result, hs, hf]
        refine .of_ok (fun hn => hl hn) ⟨[], (List.append_nil _).symm, fun rest hr => ?_⟩ (by simp)
          (by simp) rfl fun _ => ⟨by simpa using he, rfl, fun f hfail => ?_⟩
        · have hnow := hconclude []
          obtain rfl := hr he
          rw [hdone l.done] at hnow
          simp only [Outlook.ahead, outlook, hempty, List.append_nil, hdone, Future.after_nil] at hnow ⊢
          rw [hnow]
        · obtain ⟨e, he', -⟩ := hfail
          simp only [hempty, List.append_nil, hdone] at he'
          cases he'
    · rw [if_neg he]
      refine .of_ok hl ⟨[], (List.append_nil _).symm, fun rest _ => ?_⟩ (by simp) (by simp) rfl
        fun hc => by cases hc
      simp only [Outlook.ahead, outlook, hempty, hconclude, List.nil_append, Future.after_nil]
  · rw [step_of_absorb_error herr]
    refine .of_error ⟨[], (List.append_nil _).symm, fun rest _ => ⟨List.nil_prefix, e, ?_, rfl⟩⟩
      (by simp) (by simp) rfl
    rw [conclude, happ]

/-- Unless it fails a step reads all that has arrived, and closes a stream that has ended. -/
theorem step_cases {b : Bench SignatureLoader} (h : Reads b.state) :
    (∃ e, (step b).1 = .error e) ∨
      (step b).2.input.content = [] ∧ (step b).2.input.ended = b.input.ended ∧
        ((b.input.ended = true ∧ (step b).1 = .ok .done ∧ (step b).2.state.done = true) ∨
          (b.input.ended = false ∧ (step b).1 = .ok .blocked)) := by
  rcases absorb_append h b.input.content with ⟨l, hok, -, -⟩ | ⟨e, l, n, herr, -, -⟩
  · rw [step_of_absorb hok]
    have hempty := b.input.content_drop_length
    have hended : (b.input.drop b.input.length).ended = b.input.ended := by simp
    by_cases he : b.input.ended = true
    · rw [if_pos he]
      rcases close_cases l with ⟨e, hclose⟩ | ⟨hclose, -⟩ <;> rw [hclose]
      · exact .inl ⟨e, rfl⟩
      · exact .inr ⟨hempty, hended, .inl ⟨he, rfl, rfl⟩⟩
    · rw [if_neg he]
      exact .inr ⟨hempty, hended, .inr ⟨by simpa using he, rfl⟩⟩
  · rw [step_of_absorb_error herr]
    exact .inl ⟨e, rfl⟩

theorem transducer_step (b : Bench SignatureLoader) :
    Transducer.step b = ((step b).1.mapError .error, (step b).2) := rfl

theorem eq_of_step {b c : Bench SignatureLoader} {result : Except Failure Status}
    (h : Transducer.step b = (result, c)) :
    (step b).1.mapError .error = result ∧ (step b).2 = c := by
  rw [← Prod.mk.injEq, ← h, transducer_step]

/-- **No step changes what a loader makes of its stream.** -/
theorem sound : outlook.Sound where
  served {b c fed taken} h hv := by
    change Reads c.state
    rw [hv.state]
    exact h
  step {b c result} h hstep := by
    obtain ⟨rfl, rfl⟩ := eq_of_step hstep
    exact respects_step h

/-- What refuses a stream can be told. -/
theorem error_of_refused (l : SignatureLoader) (rest : Bytes) (f : Failure)
    (h : (outlook.future l rest).refused f) : ∃ e, f = .error e := by
  obtain ⟨e, -, he⟩ := h
  exact ⟨e, he⟩

/-- **A loader waits only for input.** -/
theorem prompt : outlook.Prompt fun _ => False where
  served h _ := h
  owes {b c} h hstep hin := by
    obtain ⟨hs, rfl⟩ := eq_of_step hstep
    rcases step_cases h with ⟨e, he⟩ | ⟨hempty, hended, ⟨-, hd, -⟩ | ⟨he, -⟩⟩
    · rw [he] at hs
      cases hs
    · rw [hd] at hs
      cases hs
    · rw [hended, he] at hin
      rcases hin with hne | hc
      · exact hne hempty
      · cases hc
  pays _ h := h.elim

/-- A loader that is done has read its whole stream and closed it. -/
theorem closed_of_schedule {fed taken : Bytes} {b : Bench SignatureLoader}
    (h : Schedule start fed taken (.ok .done) b) :
    b.state.done = true ∧ b.input.content = [] ∧ b.input.ended = true := by
  generalize hr : Except.ok Status.done = result at h
  induction h with
  | start => cases hr
  | served _ hv ih =>
    -- behind the end nothing more is fed
    obtain ⟨hd, hc, he⟩ := ih hr
    obtain ⟨rfl, he'⟩ := hv.ended he
    exact ⟨by rw [hv.state]; exact hd, by rw [hv.input, hc]; rfl, he'⟩
  | @stepped _ _ _ _ b c h hstep =>
    obtain ⟨hs, rfl⟩ := eq_of_step (hstep.trans (congrArg (·, c) hr.symm))
    have hreads : Reads b.state := Schedule.fit sound tells_start h
    rcases step_cases hreads with ⟨e, he⟩ | ⟨hempty, hended, ⟨he, -, hd⟩ | ⟨-, hb⟩⟩
    · rw [he] at hs
      cases hs
    · exact ⟨hd, hempty, hended.trans he⟩
    · rw [hb] at hs
      cases hs

/-- What a loader that is done has kept is what was to be expected. -/
theorem result_of_schedule {fed taken : Bytes} {b : Bench SignatureLoader}
    (h : Schedule start fed taken (.ok .done) b) : (outlook.ahead b []).result = b.state.result := by
  obtain ⟨hd, hc, -⟩ := closed_of_schedule h
  obtain ⟨-, -, hnone⟩ := Schedule.settled_of_done sound tells_start h
  simp only [Outlook.ahead, outlook, hc, List.append_nil, conclude_nil] at hnone ⊢
  rcases close_cases b.state with ⟨e, hclose⟩ | ⟨hclose, -⟩
  · rw [hclose] at hnone
    exact absurd ⟨e, rfl, rfl⟩ (hnone (.error e))
  · rw [hclose, ← hd]

/-- As many iterations are enough for a loader as its source has bytes. -/
theorem run_result {σ : Type} [Source σ] {source : σ} {whole : Flow TransferError}
    (hs : Source.Delivers source whole) (p : Pipe) :
    Run.Result NoSink.Holds false outlook start (outlook.future start whole.bytes) whole.ending
      (p.run (Pipe.iterationsFor (Source.available source) 0) source start NoSink.mk) :=
  Pipe.run_spec sound tells_start prompt (NoSink.faithful framePayloadLimit) (fun _ _ => id) hs
    NoSink.holds_new p 0 fun _ => Nat.le_refl 0

/-- What a run gives that has read its stream is what was to be expected, too. -/
theorem result_of_ok {σ : Type} {bs : Bytes} {ending : Except TransferError Unit} {totals : PipeTotals}
    {run : Run σ SignatureLoader NoSink Unit}
    (h : Run.Result NoSink.Holds false outlook start (outlook.future start bs) ending
      (.ok totals, run)) : start.conclude bs = run.bench.state.result := by
  obtain ⟨-, -, ⟨_, _, hsched⟩, -, hconclude, -⟩ := h
  rw [← result_of_schedule hsched, hconclude]
  rfl

/-! ## Field by field -/

/-- The length of the field that is read. -/
def wanted (l : SignatureLoader) : Nat :=
  match l.signature with
  | none => signatureHeaderLength
  | some s => s.params.recordLength

/-- Bytes that do not complete a field are kept. -/
theorem absorb_short (h : l.field.length + bs.length < l.wanted) (rest : Bytes) :
    l.absorb (bs ++ rest) = absorb { l with field := l.field ++ bs } rest := by
  induction bs generalizing l with
  | nil => rw [List.append_nil, List.nil_append]
  | cons b bs ih =>
    rw [List.length_cons] at h
    have hlen : (l.field ++ [b]).length + bs.length < l.wanted := by
      rw [List.length_append, List.length_singleton]
      omega
    have hrest := ih (l := { l with field := l.field ++ [b] }) hlen
    rw [List.append_assoc, List.singleton_append] at hrest
    rw [← hrest]
    obtain ⟨field, _ | ⟨p, blocks⟩, done⟩ := l
    · change field.length + (bs.length + 1) < signatureHeaderLength at h
      rw [List.cons_append, absorb_header_cons (by omega), if_neg]
      rw [List.length_append, List.length_singleton]
      omega
    · change field.length + (bs.length + 1) < p.recordLength at h
      rw [List.cons_append, absorb_record_cons, if_neg]
      rw [List.length_append, List.length_singleton]
      omega

theorem absorb_of_short (h : l.field.length + bs.length < l.wanted) :
    l.absorb bs = (.ok (), { l with field := l.field ++ bs }, 0) := by
  have hall := absorb_short h []
  rwa [List.append_nil, absorb_nil] at hall

/-- Bytes that complete a header. One that is refused stays. -/
theorem absorb_header (hne : bs ≠ []) (hl : field.length + bs.length = signatureHeaderLength)
    (rest : Bytes) :
    absorb ⟨field, none, done⟩ (bs ++ rest) = match Params.ofHeader (field ++ bs) with
      | .error e => (.error e, ⟨field ++ bs, none, done⟩, rest.length)
      | .ok p => absorb ⟨[], some ⟨p, #[]⟩, done⟩ rest := by
  obtain ⟨front, b, rfl⟩ := (List.eq_nil_or_concat' bs).resolve_left hne
  rw [List.length_append, List.length_singleton] at hl
  have hshort : field.length + front.length < signatureHeaderLength := by omega
  rw [List.append_assoc, absorb_short hshort, List.singleton_append,
    absorb_header_cons (by rwa [List.length_append]), if_pos, List.append_assoc]
  rw [List.length_append, List.length_append, List.length_singleton]
  omega

/-- Bytes that complete a record. -/
theorem absorb_record (hne : bs ≠ []) (hl : field.length + bs.length = p.recordLength)
    (rest : Bytes) :
    absorb ⟨field, some ⟨p, blocks⟩, done⟩ (bs ++ rest) =
      absorb ⟨[], some ⟨p, blocks.push (.ofRecord (UInt32.ofNat blocks.size) (field ++ bs))⟩, done⟩
        rest := by
  obtain ⟨front, b, rfl⟩ := (List.eq_nil_or_concat' bs).resolve_left hne
  rw [List.length_append, List.length_singleton] at hl
  have hshort : field.length + front.length < p.recordLength := by omega
  rw [List.append_assoc, absorb_short hshort, List.singleton_append, absorb_record_cons, if_pos,
    List.append_assoc]
  rw [List.length_append, List.length_append, List.length_singleton]
  omega

theorem absorb_records {records : List Bytes} (h : ∀ r ∈ records, r.length = p.recordLength)
    (rest : Bytes) :
    absorb ⟨[], some ⟨p, blocks⟩, done⟩ (records.flatten ++ rest) =
      absorb ⟨[], some ⟨p, blocks ++ (records.mapIdx fun i r =>
        BlockSum.ofRecord (UInt32.ofNat (blocks.size + i)) r).toArray⟩, done⟩ rest := by
  induction records generalizing blocks with
  | nil => simp
  | cons r records ih =>
    rw [List.forall_mem_cons] at h
    have hne : r ≠ [] := List.ne_nil_of_length_pos (by rw [h.1, Params.recordLength]; omega)
    rw [List.flatten_cons, List.append_assoc,
      absorb_record hne (by rw [List.length_nil, Nat.zero_add, h.1]), List.nil_append, ih h.2]
    simp [List.mapIdx_cons, Nat.add_assoc, Nat.add_comm 1]

/-! ## Whole streams -/

/-- A header and whole records are read. -/
theorem absorb_start (hp : p.Valid) {records : List Bytes}
    (h : ∀ r ∈ records, r.length = p.recordLength) (rest : Bytes) :
    start.absorb (p.header ++ (records.flatten ++ rest)) =
      absorb ⟨[], some (.ofRecords p records), false⟩ rest := by
  have hne : p.header ≠ [] := List.ne_nil_of_length_pos (by rw [Params.length_header]; decide)
  rw [start, absorb_header hne (by rw [List.length_nil, Nat.zero_add, Params.length_header]),
    List.nil_append, Params.ofHeader_header hp]
  dsimp only
  rw [absorb_records h]
  simp [Signature.ofRecords]

/-- **Of a signature stream a loader makes the signature in its records.** -/
theorem conclude_of_isStream {records : List Bytes} (h : Signature.IsStream p records bs) :
    start.conclude bs = .ok (.ofRecords p records) := by
  obtain ⟨hv, hl, rfl⟩ := Signature.isStream_iff.mp h
  have habsorb := absorb_start hv hl []
  rw [List.append_nil, absorb_nil] at habsorb
  rw [conclude, habsorb]
  rfl

/-- **Every other byte string is refused for what is wrong with it.** -/
theorem conclude_cases (bs : Bytes) :
    (∃ p records, Signature.IsStream p records bs) ∨
      start.conclude bs = .error (Signature.refusal bs) := by
  rcases Signature.stream_cases bs with hshort | ⟨hl, e, he⟩ | ⟨p, records, tail, hv, hl, ht, rfl⟩
  · right
    rw [Signature.refusal_of_short hshort, conclude, absorb_of_short (by
      change 0 + _ < signatureHeaderLength
      omega)]
    rfl
  · right
    have hhead : (bs.take signatureHeaderLength).length = signatureHeaderLength :=
      List.length_take_of_le hl
    have hne : bs.take signatureHeaderLength ≠ [] :=
      List.ne_nil_of_length_pos (by rw [hhead]; decide)
    have habsorb : absorb ⟨[], none, false⟩ _ = _ :=
      absorb_header hne (by rw [hhead]; rfl) (bs.drop signatureHeaderLength)
    rw [List.nil_append, Signature.ofHeader_take, he, List.take_append_drop] at habsorb
    rw [Signature.refusal_of_header hl, he, conclude, start, habsorb]
  · cases tail with
    | nil => exact .inl ⟨p, records, Signature.isStream_iff.mpr ⟨hv, hl, by rw [List.append_nil]⟩⟩
    | cons b tail =>
      right
      have hhead : Params.ofHeader (p.header ++ (records.flatten ++ b :: tail)) = .ok p := by
        rw [← Signature.ofHeader_take, List.take_left' (Params.length_header p),
          Params.ofHeader_header hv]
      rw [Signature.refusal_of_header (by rw [List.length_append, Params.length_header]; omega), hhead,
        conclude, absorb_start hv hl, absorb_of_short (by
          change 0 + _ < p.recordLength
          omega)]
      rfl

/-- **The parameters of a signature that is read are valid**, whatever was sent. -/
theorem valid_of_conclude {s : Signature} (h : start.conclude bs = .ok s) : s.params.Valid := by
  rcases conclude_cases bs with ⟨p, records, hstream⟩ | herror
  · rw [conclude_of_isStream hstream] at h
    obtain rfl := Except.ok.inj h
    exact hstream.valid
  · rw [herror] at h
    cases h

/-- **Of the stream of a canonical signature a loader makes that signature.** -/
theorem conclude_of_canonical {s : Signature} (h : s.Canonical) : start.conclude s.encode = .ok s := by
  rw [conclude_of_isStream (Signature.isStream_encode h), Signature.ofRecords_records h]

/-- The signature of a file is one of them. -/
theorem conclude_encode (hp : p.Valid) {file : Bytes} {s : Signature}
    (h : Signature.ofBytes p file = .ok s) : start.conclude s.encode = .ok s :=
  conclude_of_canonical (Signature.canonical_ofBytes hp h)

end SignatureLoader

end BlockSync
