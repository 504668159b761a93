import BlockSync.Proofs.Machine.Engine
import BlockSync.Proofs.Signature.Loading

/-!
# Loading on the machine

* `SignatureLoader.readFields`: fields are read while there is input;
* `SignatureLoader.Partial`: a field is not complete before it is looked at;
* **`SignatureLoader.readFields_eq`**: nothing traps, whatever arrives, and the bytes are absorbed as
  by the loader;
* **`SignatureLoader.implements`**: the loader on the machine does what the loader does.
-/

namespace BlockSync

open Machine

/-- The digest whose first bytes are known. -/
def Digest.fill (known : Bytes) : Machine Digest := do
  let count := min known.length digestLength
  within count digestLength
  let front ← part known 0 count
  return .ofInitial front

theorem Digest.fill_eq (known : Bytes) : Digest.fill known = .ok (.ofInitial known) := by
  have hle : min known.length digestLength ≤ known.length := Nat.min_le_left _ _
  have htake : known.take (min known.length digestLength) = known.take digestLength := by
    rw [Nat.min_comm, ← List.take_take, List.take_length]
  have hof : Digest.ofInitial (known.take digestLength) = .ofInitial known := by
    have hzeros : digestLength - min digestLength known.length = digestLength - known.length := by omega
    simp only [ofInitial, List.take_take, Nat.min_self, List.length_take, hzeros]
  simp only [fill, within_of_le (Nat.min_le_right _ _), bind_ok, part_zero hle, htake, hof]
  rfl

namespace SignatureLoader

/-- The parameters in a complete header. -/
def readHeader (head : Bytes) : Machine (Except TransferError Params) := do
  let mark ← part head 0 4
  if mark = signatureMark then
    let blockLength ← number 4 (← part head 4 8)
    let strongLength ← number 4 (← part head 8 12)
    return Params.checked (UInt32.ofNat blockLength) (UInt32.ofNat strongLength)
  else return .error (.invalidSignature (.wrongMark mark))

/-- The block in a complete record. -/
def readRecord (index : UInt32) (record : Bytes) : Machine BlockSum := do
  let weak ← number 4 record
  let strong ← Digest.fill (← part record 4 record.length)
  return ⟨index, UInt32.ofNat weak, strong⟩

/-- Fields are read while there is input. -/
def readFields : Nat → SignatureLoader → Buffer →
    Machine (Except TransferError Unit × SignatureLoader × Buffer)
  | 0, _, _ => .error .diverged
  | fuel + 1, l, input =>
    if input.isEmpty then return (.ok (), l, input)
    else
      match l.signature with
      | none => do
        match ← input.fill l.field signatureHeaderLength with
        | (none, field, input) => return (.ok (), { l with field := field }, input)
        | (some head, field, input) =>
          match ← readHeader head with
          | .error e => return (.error e, { l with field := field }, input)
          | .ok params => readFields fuel ⟨[], some ⟨params, #[]⟩, l.done⟩ input
      | some ⟨params, blocks⟩ => do
        let recordLength ← add 64 4 params.strongLength.toNat
        match ← input.fill l.field recordLength with
        | (none, field, input) => return (.ok (), { l with field := field }, input)
        | (some record, _, input) =>
          let block ← readRecord (UInt32.ofNat blocks.size) record
          readFields fuel ⟨[], some ⟨params, blocks.push block⟩, l.done⟩ input

/-- One step. -/
def advance (l : SignatureLoader) (input output : Buffer) :
    Machine (Except TransferError Status × SignatureLoader × Buffer × Buffer) := do
  match ← readFields (input.filled + 1) l input with
  | (.error e, l, input) => return (.error e, l, input, output)
  | (.ok (), l, input) =>
    if input.isExhausted then
      let (result, l) := l.close
      return (result, l, input, output)
    else return (.ok .blocked, l, input, output)

instance : Program SignatureLoader where
  step := advance

/-! ## Fields -/

theorem readHeader_eq {head : Bytes} (h : head.length = signatureHeaderLength) :
    readHeader head = .ok (Params.ofHeader head) := by
  have h' : head.length = 12 := h
  have h₁ : 4 ≤ ((head.drop 4).take (8 - 4)).length := by
    rw [List.length_take, List.length_drop]
    omega
  have h₂ : 4 ≤ ((head.drop 8).take (12 - 8)).length := by
    rw [List.length_take, List.length_drop]
    omega
  rw [readHeader, part_zero (by omega), bind_ok, Params.ofHeader]
  by_cases hm : head.take 4 = signatureMark
  · rw [if_pos hm]
    simp only [if_pos hm]
    rw [part_of_le (by decide) (by omega), bind_ok, number_of_le h₁, bind_ok,
      part_of_le (by decide) (by omega), bind_ok, number_of_le h₂]
    simp only [List.take_take]
    rfl
  · rw [if_neg hm]
    simp only [if_neg hm]
    rfl

theorem readRecord_eq (index : UInt32) {record : Bytes} (h : 4 ≤ record.length) :
    readRecord index record = .ok (.ofRecord index record) := by
  rw [readRecord, number_of_le h, bind_ok, part_length h, bind_ok, Digest.fill_eq]
  rfl

/-! ## Absorbing field by field -/

/-- A field is not complete before it is looked at. -/
def Partial (l : SignatureLoader) : Prop := l.field.length < l.wanted

theorem Partial.reads {l : SignatureLoader} (h : l.Partial) : Reads l := fun hn => by
  rw [Partial, wanted, hn] at h
  exact h

theorem partial_start : start.Partial := (by decide : 0 < signatureHeaderLength)

theorem partial_record (p : Params) (blocks : Array BlockSum) (done : Bool) :
    Partial ⟨[], some ⟨p, blocks⟩, done⟩ := by
  change 0 < 4 + _
  omega

end SignatureLoader

/-! ## Fields of a queue -/

/-- A field that the queue completes. -/
theorem Field.collect_of_le {f : Field} {q : Queue} {length : Nat} (h : f.bytes.length ≤ length)
    (hq : length ≤ f.bytes.length + q.length) :
    f.collect q length = (some (f.bytes ++ q.content.take (length - f.bytes.length)),
      ⟨f.bytes ++ q.content.take (length - f.bytes.length)⟩, q.drop (length - f.bytes.length)) := by
  have hn : length ≤ (f.bytes ++ q.content).length := by
    rw [List.length_append, Queue.length_content]
    exact hq
  rw [collect_eq h, if_pos hn, List.take_append, List.take_of_length_le h]

/-- A field that the queue does not complete takes all. -/
theorem Field.collect_of_lt {f : Field} {q : Queue} {length : Nat}
    (h : f.bytes.length + q.length < length) :
    f.collect q length = (none, ⟨f.bytes ++ q.content⟩, q.drop q.length) := by
  have hn : (f.bytes ++ q.content).length < length := by
    rw [List.length_append, Queue.length_content]
    exact h
  have hdrop : q.drop (length - f.bytes.length) = q.drop q.length := by
    rw [← Queue.drop_min, Nat.min_eq_right (by omega)]
  rw [collect_eq (by omega), if_neg (Nat.not_le.mpr hn), List.take_of_length_le (Nat.le_of_lt hn), hdrop]

namespace SignatureLoader

variable {l : SignatureLoader} {q : Queue} {fuel : Nat}

/-- What is left of a queue when bytes have been absorbed. -/
def leave (q : Queue) (result : Except TransferError Unit × SignatureLoader × Nat) :
    Except TransferError Unit × SignatureLoader × Buffer :=
  (result.1, result.2.1, (q.drop (q.length - result.2.2)).buffer)

/-- The front of a queue, and what is behind it. -/
theorem front_of_le {n : Nat} (h : n ≤ q.length) (hpos : 0 < n) :
    (q.content.take n).length = n ∧ q.content.take n ≠ [] ∧
      q.content.take n ++ (q.drop n).content = q.content := by
  have hlen : (q.content.take n).length = n :=
    List.length_take_of_le (by rw [Queue.length_content]; exact h)
  refine ⟨hlen, List.ne_nil_of_length_pos (by omega), ?_⟩
  rw [Queue.content_drop, List.take_append_drop]

theorem absorb_rest_le (h : Reads l) (bs : Bytes) : (l.absorb bs).2.2 ≤ bs.length := by
  rcases absorb_append h bs with ⟨l', hok, -, -⟩ | ⟨e, l', n, herr, hn, -⟩
  · rw [hok]
    exact Nat.zero_le _
  · rw [herr]
    exact hn

theorem leave_drop {n : Nat} {result : Except TransferError Unit × SignatureLoader × Nat}
    (h : n + result.2.2 ≤ q.length) : leave (q.drop n) result = leave q result := by
  have hn : n + (q.length - n - result.2.2) = q.length - result.2.2 := by omega
  simp only [leave, Queue.length_drop, Queue.drop_drop, hn]

/-- **Reading field by field absorbs all that has arrived**, and nothing traps. -/
theorem readFields_eq (hc : q.capacity < 2 ^ 64) (hl : l.Partial) (hf : q.length < fuel) :
    readFields fuel l q.buffer = .ok (leave q (l.absorb q.content)) := by
  -- on the fuel: each field takes at least a byte
  induction fuel generalizing l q with
  | zero => omega
  | succ fuel ih =>
    rw [readFields]
    by_cases he : q.isEmpty = true
    · have hnil := q.isEmpty_iff.mp he
      have hz : q.length = 0 := by rw [← q.length_content, hnil]; rfl
      rw [if_pos (by exact he), hnil, absorb_nil]
      simp only [leave, hz, Nat.sub_zero, Queue.drop_zero]
      rfl
    · rw [if_neg (by exact he)]
      obtain ⟨field, _ | ⟨p, blocks⟩, done⟩ := l
      · change field.length < signatureHeaderLength at hl
        dsimp only
        rw [Queue.buffer_fill hc ⟨field⟩, bind_ok]
        by_cases hshort : field.length + q.length < signatureHeaderLength
        · rw [Field.collect_of_lt hshort, absorb_of_short (by rw [Queue.length_content]; exact hshort)]
          rfl
        · obtain ⟨n, hn⟩ : ∃ n, signatureHeaderLength - field.length = n := ⟨_, rfl⟩
          obtain ⟨hfront, hne, hsplit⟩ := front_of_le (q := q) (n := n) (by omega) (by omega)
          have hlen : field.length + (q.content.take n).length = signatureHeaderLength := by omega
          have hhead : (field ++ q.content.take n).length = signatureHeaderLength := by
            rw [List.length_append, hlen]
          rw [Field.collect_of_le (Nat.le_of_lt hl) (Nat.le_of_not_lt hshort), hn]
          dsimp only
          rw [readHeader_eq hhead, bind_ok]
          have habsorb : absorb ⟨field, none, done⟩ (q.content.take n ++ (q.drop n).content) = _ :=
            absorb_header hne hlen (q.drop n).content
          rw [hsplit] at habsorb
          cases hp : Params.ofHeader (field ++ q.content.take n) with
          | error e =>
            have hback : q.length - (q.length - n) = n := by omega
            rw [hp] at habsorb
            dsimp only at habsorb
            rw [Queue.length_content, Queue.length_drop] at habsorb
            rw [habsorb, leave, hback]
            rfl
          | ok p =>
            have hl' := partial_record p #[] done
            have hrest := absorb_rest_le hl'.reads (q.drop n).content
            rw [Queue.length_content, Queue.length_drop] at hrest
            rw [hp] at habsorb
            dsimp only at habsorb
            rw [habsorb, ← leave_drop (n := n) (by omega)]
            exact ih (by rwa [Queue.capacity_drop]) hl' (by rw [Queue.length_drop]; omega)
      · change field.length < p.recordLength at hl
        have hrecord : add 64 4 p.strongLength.toNat = .ok p.recordLength := by
          refine add_of_lt ?_
          have := p.strongLength.toNat_lt
          omega
        dsimp only
        rw [hrecord, bind_ok, Queue.buffer_fill hc ⟨field⟩, bind_ok]
        by_cases hshort : field.length + q.length < p.recordLength
        · rw [Field.collect_of_lt hshort, absorb_of_short (by rw [Queue.length_content]; exact hshort)]
          rfl
        · obtain ⟨n, hn⟩ : ∃ n, p.recordLength - field.length = n := ⟨_, rfl⟩
          obtain ⟨hfront, hne, hsplit⟩ := front_of_le (q := q) (n := n) (by omega) (by omega)
          have hlen : field.length + (q.content.take n).length = p.recordLength := by omega
          have hfour : 4 ≤ (field ++ q.content.take n).length := by
            rw [List.length_append, hlen, Params.recordLength]
            omega
          rw [Field.collect_of_le (Nat.le_of_lt hl) (Nat.le_of_not_lt hshort), hn]
          dsimp only
          rw [readRecord_eq _ hfour, bind_ok]
          have habsorb : absorb ⟨field, some ⟨p, blocks⟩, done⟩
              (q.content.take n ++ (q.drop n).content) = _ :=
            absorb_record hne hlen (q.drop n).content
          have hl' := partial_record p (blocks.push
            (.ofRecord (UInt32.ofNat blocks.size) (field ++ q.content.take n))) done
          have hrest := absorb_rest_le hl'.reads (q.drop n).content
          rw [Queue.length_content, Queue.length_drop] at hrest
          rw [hsplit] at habsorb
          rw [habsorb, ← leave_drop (n := n) (by omega)]
          exact ih (by rwa [Queue.capacity_drop]) hl' (by rw [Queue.length_drop]; omega)

/-- What follows a complete field is not complete. -/
theorem partial_absorb {bs : Bytes} (hl : l.Partial) (h : (l.absorb bs).1 = .ok ()) :
    (l.absorb bs).2.1.Partial := by
  induction bs generalizing l with
  | nil =>
    rw [absorb_nil]
    exact hl
  | cons b bs ih =>
    obtain ⟨field, _ | ⟨p, blocks⟩, done⟩ := l
    · change field.length < signatureHeaderLength at hl
      rw [absorb_header_cons hl] at h ⊢
      by_cases hc : (field ++ [b]).length = signatureHeaderLength
      · rw [if_pos hc] at h ⊢
        cases hp : Params.ofHeader (field ++ [b]) with
        | error e =>
          rw [hp] at h
          cases h
        | ok p =>
          rw [hp] at h
          exact ih (partial_record p #[] done) h
      · rw [if_neg hc] at h ⊢
        refine ih ?_ h
        rw [List.length_append, List.length_singleton] at hc
        change (field ++ [b]).length < signatureHeaderLength
        rw [List.length_append, List.length_singleton]
        omega
    · change field.length < p.recordLength at hl
      rw [absorb_record_cons] at h ⊢
      by_cases hc : (field ++ [b]).length = p.recordLength
      · rw [if_pos hc] at h ⊢
        exact ih (partial_record p _ done) h
      · rw [if_neg hc] at h ⊢
        refine ih ?_ h
        rw [List.length_append, List.length_singleton] at hc
        change (field ++ [b]).length < p.recordLength
        rw [List.length_append, List.length_singleton]
        omega

/-- In any schedule a field is not complete before it is looked at. -/
theorem partial_of_schedule {fed taken : Bytes} {status : Status} {b : Bench SignatureLoader}
    (h : Schedule start fed taken (.ok status) b) : b.state.Partial := by
  generalize hr : Except.ok status = result at h
  induction h generalizing status with
  | start => exact partial_start
  | served _ hv ih =>
    rw [hv.state]
    exact ih rfl
  | @stepped _ _ _ _ b c _ hstep ih =>
    have hl := ih rfl
    obtain ⟨hs, rfl⟩ := eq_of_step hstep
    rcases absorb_append hl.reads b.input.content with ⟨l, hok, -, -⟩ | ⟨e, l, n, herr, -, -⟩
    · have hl' : l.Partial := by
        have hpartial : (absorb _ b.input.content).2.1.Partial := partial_absorb hl (by rw [hok])
        rwa [hok] at hpartial
      rw [step_of_absorb hok]
      by_cases he : b.input.ended = true
      · rw [if_pos he]
        rcases close_cases l with ⟨e, hclose⟩ | ⟨hclose, -⟩ <;> rw [hclose] <;> exact hl'
      · rw [if_neg he]
        exact hl'
    · rw [step_of_absorb_error herr] at hs
      rw [← hr] at hs
      cases hs

/-- A step on the machine. -/
theorem advance_does {b : Bench SignatureLoader} (hc : b.input.capacity < 2 ^ 64)
    (hl : b.state.Partial) :
    Does (fun c : Bench SignatureLoader => (c.state, c.input.buffer, c.output.buffer))
      (advance b.state b.input.buffer b.output.buffer) (Transducer.step b) := by
  refine ⟨(step b).1, ?_, rfl⟩
  change _ = Except.ok ((step b).1, (step b).2.state, (step b).2.input.buffer,
    (step b).2.output.buffer)
  rw [advance, Queue.filled_buffer, readFields_eq hc hl (Nat.lt_succ_self _), bind_ok]
  rcases absorb_append hl.reads b.input.content with ⟨l, hok, -, -⟩ | ⟨e, l, n, herr, -, -⟩
  · rw [step_of_absorb hok, hok]
    simp only [leave, Nat.sub_zero]
    change (if (b.input.drop b.input.length).atEnd = true then _ else _) = _
    rw [Queue.atEnd_drop_length]
    by_cases he : b.input.ended = true
    · rw [if_pos he, if_pos he]
      rfl
    · rw [if_neg he, if_neg he]
      rfl
  · rw [step_of_absorb_error herr, herr]
    rfl

/-- **The loader on the machine does what the loader does.** -/
theorem implements : Program.Implements (id : SignatureLoader → SignatureLoader) start where
  step h hi _ _ _ :=
    advance_does (Nat.lt_of_le_of_lt hi (by decide)) (partial_of_schedule h)

end SignatureLoader

end BlockSync
