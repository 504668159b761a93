import BlockSync.Proofs.Basis
import BlockSync.Proofs.Delta.Moves
import BlockSync.Proofs.Delta.Reading

/-!
# Patching step by step

* `Ending.refuses`: the errors with which a patcher may refuse a delta that is read to an end;
* `Patcher.reading`, `Patcher.outlook`: what a patcher will put out, told from its state and what is
  left of the delta;
* **`Patcher.sound`**, **`Patcher.prompt`**: no step changes it, and a patcher waits only for input
  or for room.
-/

namespace BlockSync

/-- The errors with which a delta that is read to an end may be refused, if `actual` is the digest of
what was built. How many bytes are said to trail depends on how many have arrived. -/
def Ending.refuses (verify : Bool) (actual : Digest) : Ending → Failure → Prop
  | .closed checksum trailing, f =>
    if verify && checksum != actual then
      f = .error (.checksumMismatch checksum.bytes actual.bytes)
    else ∃ n, 0 < n ∧ n ≤ trailing.length ∧ f = .error (.corruptedDelta (.trailingBytes n))
  | .compared trailing, f =>
    ∃ n, 0 < n ∧ n ≤ trailing.length ∧ f = .error (.corruptedDelta (.trailingBytes n))
  | .refused cause, f => f = .error cause

/-- A digest that agrees, or need not, is no reason to refuse a delta. -/
theorem Ending.refuses_of_agrees {verify : Bool} {checksum actual : Digest} (trailing : Bytes)
    (h : ¬ (verify && checksum != actual) = true) :
    (closed checksum trailing).refuses verify actual =
      (compared trailing).refuses verify actual := by
  funext f
  simp only [refuses]
  rw [if_neg h]

namespace Patcher

variable {β : Type} [Basis β] {Holds : β → Bytes → Prop} {basis : Bytes}

/-! ## The outlook -/

omit [Basis β] in
/-- What reading the rest of a delta comes to. -/
def reading (basis : Bytes) (p : Patcher β) (rest : Bytes) : Reading :=
  match p.stage with
  | .mark => readDelta basis (p.field.bytes ++ rest)
  | .opcode => readInstructions basis rest
  | .copyRange => readCopy basis (p.field.bytes ++ rest)
  | .copying offset remaining =>
    (readInstructions basis rest).after ((basis.drop offset).take remaining)
  | .insertLength => readInsertion basis (p.field.bytes ++ rest)
  | .inserting remaining => readInserted basis remaining rest
  | .checksum => readClosing (p.field.bytes ++ rest)
  | .done => ⟨[], .compared rest⟩

/-- What a reading of the rest of a delta says of a patcher. -/
def foresee (p : Patcher β) (r : Reading) : Future Nat where
  output := r.output
  refused := r.ending.refuses p.verify (p.hasher.update r.output).digest
  result := p.written + r.output.length

/-- A patcher of the basis in the midst of a delta. -/
structure Works (Holds : β → Bytes → Prop) (basis : Bytes) (p : Patcher β) : Prop where
  holds : Holds p.basis basis
  basisSize : p.basisSize = basis.length
  stage : StageFits basis.length p.stage p.field

/-- What a patcher will put out. -/
def outlook (Holds : β → Bytes → Prop) (basis : Bytes) : Outlook (Patcher β) Nat where
  Fit b := Works Holds basis b.state
  future p rest := p.foresee (p.reading basis rest)

omit [Basis β] in
theorem foresee_after (p : Patcher β) (r : Reading) (bs : Bytes) :
    p.foresee (r.after bs) = ((p.record bs).foresee r).after bs := by
  simp only [foresee, Reading.after, Future.after, record, Blake3.Hasher.update_append,
    List.length_append, Nat.add_assoc]

variable {b c : Bench (Patcher β)}

/-! ## Moves -/

omit [Basis β] in
/-- What is put out is the front of what was to be read. -/
theorem keeps_of_reading (bs : Bytes)
    (hr : ∀ rest, b.state.reading basis (b.input.content ++ rest) =
      (c.state.reading basis (c.input.content ++ rest)).after bs)
    (hv : c.state.verify = b.state.verify) (hh : c.state.hasher = b.state.hasher.update bs)
    (hw : c.state.written = b.state.written + bs.length)
    (ho : c.output.content = b.output.content ++ bs) : (outlook Holds basis).Keeps b c := by
  refine ⟨bs, ho, fun rest _ => ?_⟩
  simp only [Outlook.ahead, outlook, hr, foresee_after]
  simp only [foresee, record, hv, hh, hw]

omit [Basis β] in
theorem breaks_of_refuses {f : Failure} (ho : c.output.content = b.output.content)
    (hr : ∀ rest, (b.input.ended = true → rest = []) →
      (b.state.foresee (b.state.reading basis (b.input.content ++ rest))).refused f) :
    (outlook Holds basis).Breaks b c f :=
  ⟨[], by rw [ho, List.append_nil], fun rest h => ⟨List.nil_prefix, hr rest h⟩⟩

/-- The ends of two queues are the same. -/
structure Alongside (b c : Bench (Patcher β)) : Prop where
  ended : c.input.ended = b.input.ended
  inputCapacity : c.input.capacity = b.input.capacity
  outputCapacity : c.output.capacity = b.output.capacity

/-- What a move may lead to. -/
def Leads (Holds : β → Bytes → Prop) (basis : Bytes) (b : Bench (Patcher β)) :
    Move (Bench (Patcher β)) → Prop
  | .next c => Works Holds basis c.state ∧ (outlook Holds basis).Keeps b c ∧ Alongside b c
  | .halt reason c =>
    Works Holds basis c.state ∧ (outlook Holds basis).Keeps b c ∧ Alongside b c ∧ Halts reason c
  | .fail e c => (outlook Holds basis).Breaks b c (.error e) ∧ Alongside b c

variable {β' : β} {size written : Nat} {verify : Bool} {field : Field} {hasher : Blake3.Hasher}
  {input output : Queue}

omit [Basis β] in
/-- A field that is not complete takes all input. -/
theorem starves_of_field {stage : PatchStage} {q : Queue}
    (h : Works Holds basis ⟨β', size, verify, stage, field, hasher, written⟩)
    (hfit : StageFits basis.length stage ⟨field.bytes ++ input.content⟩)
    (hstage : ∀ offset remaining, stage ≠ .copying offset remaining)
    (hqe : q.ended = input.ended) (hqc : q.capacity = input.capacity) (hnil : q.content = [])
    (hread : ∀ rest, reading basis (⟨β', size, verify, stage, field, hasher, written⟩ : Patcher β)
        (input.content ++ rest) =
      reading basis (⟨β', size, verify, stage, ⟨field.bytes ++ input.content⟩, hasher, written⟩ :
        Patcher β) rest) :
    Leads Holds basis ⟨⟨β', size, verify, stage, field, hasher, written⟩, input, output⟩
      (.halt .starved ⟨⟨β', size, verify, stage, ⟨field.bytes ++ input.content⟩, hasher, written⟩, q,
        output⟩) := by
  refine ⟨⟨h.holds, h.basisSize, hfit⟩, ?_, ⟨hqe, hqc, rfl⟩, hnil, hstage⟩
  refine keeps_of_reading [] (fun rest => ?_) rfl rfl rfl (List.append_nil _).symm
  rw [hread, hnil, List.nil_append, Reading.after_nil]

theorem move_mark (h : Works Holds basis ⟨β', size, verify, .mark, field, hasher, written⟩) :
    Leads Holds basis ⟨⟨β', size, verify, .mark, field, hasher, written⟩, input, output⟩
      (move ⟨⟨β', size, verify, .mark, field, hasher, written⟩, input, output⟩) := by
  obtain ⟨q, hqe, hqc, ⟨bs, hc, hl, hcont⟩ | ⟨hc, hnil, hl⟩⟩ := Field.collect_spec h.stage input
  · have hread : ∀ rest, readDelta basis (field.bytes ++ (input.content ++ rest)) =
        if bs = deltaMark then readInstructions basis (q.content ++ rest)
        else .refused (.corruptedDelta (.wrongMark bs)) := fun rest => by
      rw [← List.append_assoc, hcont, List.append_assoc, readDelta_field basis hl]
    simp only [move, hc, takeMark]
    by_cases hm : bs = deltaMark
    · rw [if_pos hm]
      refine ⟨⟨h.holds, h.basisSize, rfl⟩, ?_, hqe, hqc, rfl⟩
      refine keeps_of_reading [] (fun rest => ?_) rfl rfl rfl (List.append_nil _).symm
      simp only [reading, hread, if_pos hm]
      rfl
    · rw [if_neg hm]
      refine ⟨breaks_of_refuses rfl fun rest _ => ?_, hqe, hqc, rfl⟩
      simp only [reading, hread, if_neg hm]
      rfl
  · simp only [move, hc]
    exact starves_of_field h hl (by simp) hqe hqc hnil fun rest => by
      simp only [reading, List.append_assoc]

omit [Basis β] in
/-- The stage that follows an opcode reads what is behind it. -/
theorem leads_of_opcode {code : UInt8} {bs : Bytes} {stage : PatchStage}
    (h : Works Holds basis ⟨β', size, verify, .opcode, .empty, hasher, written⟩)
    (hcont : input.content = code :: bs) (hfit : StageFits basis.length stage .empty)
    (hread : ∀ rest, readInstructions basis (code :: rest) =
      reading basis (⟨β', size, verify, stage, .empty, hasher, written⟩ : Patcher β) rest) :
    Leads Holds basis ⟨⟨β', size, verify, .opcode, .empty, hasher, written⟩, input, output⟩
      (.next ⟨⟨β', size, verify, stage, .empty, hasher, written⟩, input.drop 1, output⟩) := by
  refine ⟨⟨h.holds, h.basisSize, hfit⟩, ?_, by simp, by simp, rfl⟩
  refine keeps_of_reading [] (fun rest => ?_) rfl rfl rfl (List.append_nil _).symm
  rw [Reading.after_nil, input.content_drop, hcont, List.drop_one, List.tail_cons, ← hread]
  rfl

theorem move_opcode (h : Works Holds basis ⟨β', size, verify, .opcode, field, hasher, written⟩) :
    Leads Holds basis ⟨⟨β', size, verify, .opcode, field, hasher, written⟩, input, output⟩
      (move ⟨⟨β', size, verify, .opcode, field, hasher, written⟩, input, output⟩) := by
  obtain rfl : field = .empty := h.stage
  have hfront := input.front_eq 1
  cases hcont : input.content with
  | nil =>
    have hf : input.front 1 = [] := by rw [hfront, hcont]; rfl
    simp only [move, hf]
    exact ⟨h, Outlook.Keeps.refl _ _, ⟨rfl, rfl, rfl⟩, hcont, by simp⟩
  | cons code bs =>
    have hf : input.front 1 = [code] := by rw [hfront, hcont]; rfl
    simp only [move, hf, stageOf]
    by_cases hc : code = copyOpcode
    · rw [if_pos hc]
      refine leads_of_opcode h hcont (by simp [StageFits, Field.empty]) fun rest => ?_
      rw [hc, readInstructions_copy]
      rfl
    · rw [if_neg hc]
      by_cases hi : code = insertOpcode
      · rw [if_pos hi]
        refine leads_of_opcode h hcont (by simp [StageFits, Field.empty]) fun rest => ?_
        rw [hi, readInstructions_insert]
        rfl
      · rw [if_neg hi]
        by_cases hcl : code = closeOpcode
        · rw [if_pos hcl]
          refine leads_of_opcode h hcont (by simp [StageFits, Field.empty, digestLength])
            fun rest => ?_
          rw [hcl, readInstructions_close]
          rfl
        · rw [if_neg hcl]
          refine ⟨breaks_of_refuses rfl fun rest _ => ?_, by simp, by simp, rfl⟩
          simp only [reading, hcont, List.cons_append]
          rw [readInstructions_cons, if_neg hc, if_neg hi, if_neg hcl]
          rfl

theorem move_copyRange
    (h : Works Holds basis ⟨β', size, verify, .copyRange, field, hasher, written⟩) :
    Leads Holds basis ⟨⟨β', size, verify, .copyRange, field, hasher, written⟩, input, output⟩
      (move ⟨⟨β', size, verify, .copyRange, field, hasher, written⟩, input, output⟩) := by
  obtain rfl : size = basis.length := h.basisSize
  obtain ⟨q, hqe, hqc, ⟨bs, hc, hl, hcont⟩ | ⟨hc, hnil, hl⟩⟩ := Field.collect_spec h.stage input
  · let offset := BigEndian.decode (bs.take 8)
    let length := BigEndian.decode (bs.drop 8)
    have hread : ∀ rest, readCopy basis (field.bytes ++ (input.content ++ rest)) =
        if offset + length ≤ basis.length then
          (readInstructions basis (q.content ++ rest)).after ((basis.drop offset).take length)
        else .refused (.copyOutOfBounds offset length basis.length) := fun rest => by
      rw [← List.append_assoc, hcont, List.append_assoc, readCopy_field basis hl]
    simp only [move, hc, stageOfRange]
    by_cases hw : offset + length ≤ basis.length
    · rw [if_pos hw]
      refine ⟨⟨h.holds, rfl, rfl, hw⟩, ?_, hqe, hqc, rfl⟩
      refine keeps_of_reading [] (fun rest => ?_) rfl rfl rfl (List.append_nil _).symm
      simp only [reading, hread, if_pos hw]
      rfl
    · rw [if_neg hw]
      refine ⟨breaks_of_refuses rfl fun rest _ => ?_, hqe, hqc, rfl⟩
      simp only [reading, hread, if_neg hw]
      rfl
  · simp only [move, hc]
    exact starves_of_field h hl (by simp) hqe hqc hnil fun rest => by
      simp only [reading, List.append_assoc]

theorem move_insertLength
    (h : Works Holds basis ⟨β', size, verify, .insertLength, field, hasher, written⟩) :
    Leads Holds basis ⟨⟨β', size, verify, .insertLength, field, hasher, written⟩, input, output⟩
      (move ⟨⟨β', size, verify, .insertLength, field, hasher, written⟩, input, output⟩) := by
  obtain ⟨q, hqe, hqc, ⟨bs, hc, hl, hcont⟩ | ⟨hc, hnil, hl⟩⟩ := Field.collect_spec h.stage input
  · have hread : ∀ rest, readInsertion basis (field.bytes ++ (input.content ++ rest)) =
        readInserted basis (BigEndian.decode bs) (q.content ++ rest) := fun rest => by
      rw [← List.append_assoc, hcont, List.append_assoc, readInsertion_field basis hl]
    simp only [move, hc]
    have hstage : stageOfLength bs = .opcode ∧ BigEndian.decode bs = 0 ∨
        stageOfLength bs = .inserting (BigEndian.decode bs) ∧ 0 < BigEndian.decode bs := by
      unfold stageOfLength
      split
      · next hz => exact .inl ⟨rfl, hz⟩
      · next n hn => exact .inr ⟨by rw [hn], by omega⟩
    rcases hstage with ⟨hs, hz⟩ | ⟨hs, hpos⟩
    · rw [hs]
      refine ⟨⟨h.holds, h.basisSize, rfl⟩, ?_, hqe, hqc, rfl⟩
      refine keeps_of_reading [] (fun rest => ?_) rfl rfl rfl (List.append_nil _).symm
      simp only [reading, hread, hz, readInserted_zero]
      rfl
    · rw [hs]
      refine ⟨⟨h.holds, h.basisSize, rfl, hpos⟩, ?_, hqe, hqc, rfl⟩
      refine keeps_of_reading [] (fun rest => ?_) rfl rfl rfl (List.append_nil _).symm
      simp only [reading, hread]
      rfl
  · simp only [move, hc]
    exact starves_of_field h hl (by simp) hqe hqc hnil fun rest => by
      simp only [reading, List.append_assoc]

/-- Of a copy is written what there is room for, if the basis gives it. -/
theorem move_copying_of_readAt {offset remaining : Nat}
    (h : Works Holds basis
      ⟨β', size, verify, .copying offset remaining, field, hasher, written⟩)
    (hread : 0 < remaining → 0 < output.room → ∃ β'',
      Basis.readAt β' offset (min remaining output.room) =
        (.ok ((basis.drop offset).take (min remaining output.room)), β'') ∧ Holds β'' basis) :
    Leads Holds basis
      ⟨⟨β', size, verify, .copying offset remaining, field, hasher, written⟩, input, output⟩
      (move ⟨⟨β', size, verify, .copying offset remaining, field, hasher, written⟩, input,
        output⟩) := by
  obtain ⟨rfl, hw⟩ : field = .empty ∧ offset + remaining ≤ basis.length := h.stage
  by_cases hz : remaining = 0
  · subst hz
    simp only [move, if_true]
    refine ⟨⟨h.holds, h.basisSize, rfl⟩, ?_, rfl, rfl, rfl⟩
    refine keeps_of_reading [] (fun rest => ?_) rfl rfl rfl (List.append_nil _).symm
    simp only [reading, List.take_zero]
  · by_cases hr : output.room = 0
    · simp only [move, if_neg hz, if_pos hr]
      exact ⟨h, Outlook.Keeps.refl _ _, ⟨rfl, rfl, rfl⟩, hr,
        .inl ⟨offset, remaining, rfl, Nat.pos_of_ne_zero hz⟩⟩
    · let count := min remaining output.room
      have hle : offset + count ≤ basis.length := by omega
      obtain ⟨β'', hread, hholds⟩ := hread (Nat.pos_of_ne_zero hz) (Nat.pos_of_ne_zero hr)
      let bs := (basis.drop offset).take count
      have hl : bs.length = count := by
        rw [List.length_take, List.length_drop]
        omega
      have hroom : bs.take output.room = bs := List.take_of_length_le (by omega)
      have hsplit : (basis.drop offset).take remaining =
          bs ++ (basis.drop (offset + count)).take (remaining - count) := by
        rw [← List.drop_drop, ← List.take_add]
        congr 1
        omega
      simp only [move, if_neg hz, if_neg hr]
      rw [hread]
      simp only
      rw [if_pos hl]
      refine ⟨⟨hholds, h.basisSize, rfl, by omega⟩, ?_, rfl, rfl, by simp⟩
      refine keeps_of_reading bs (fun rest => ?_) rfl rfl rfl ?_
      · simp only [reading, record]
        rw [Reading.after_after, ← hsplit]
      · rw [Queue.content_append, hroom]

theorem move_copying (hb : Basis.Faithful Holds) {offset remaining : Nat}
    (h : Works Holds basis
      ⟨β', size, verify, .copying offset remaining, field, hasher, written⟩) :
    Leads Holds basis
      ⟨⟨β', size, verify, .copying offset remaining, field, hasher, written⟩, input, output⟩
      (move ⟨⟨β', size, verify, .copying offset remaining, field, hasher, written⟩, input,
        output⟩) := by
  refine move_copying_of_readAt h fun _ _ => hb.readAt h.holds ?_
  have hw : offset + remaining ≤ basis.length := h.stage.2
  omega

theorem move_inserting {remaining : Nat}
    (h : Works Holds basis ⟨β', size, verify, .inserting remaining, field, hasher, written⟩) :
    Leads Holds basis
      ⟨⟨β', size, verify, .inserting remaining, field, hasher, written⟩, input, output⟩
      (move ⟨⟨β', size, verify, .inserting remaining, field, hasher, written⟩, input, output⟩) := by
  obtain ⟨rfl, hpos⟩ : field = .empty ∧ 0 < remaining := h.stage
  by_cases hr : output.room = 0
  · simp only [move, if_pos hr]
    exact ⟨h, Outlook.Keeps.refl _ _, ⟨rfl, rfl, rfl⟩, hr, .inr ⟨remaining, rfl⟩⟩
  · by_cases he : input.isEmpty = true
    · simp only [move, if_neg hr, if_pos he]
      exact ⟨h, Outlook.Keeps.refl _ _, ⟨rfl, rfl, rfl⟩, input.isEmpty_iff.mp he,
        by simp⟩
    · let count := min remaining (min input.length output.room)
      let bs := input.front count
      have hl : bs.length = count := by rw [Queue.length_front]; omega
      have hroom : bs.take output.room = bs := List.take_of_length_le (by omega)
      have hfront : bs = input.content.take count := input.front_eq count
      have hread : ∀ rest, readInserted basis remaining (input.content ++ rest) =
          (readInserted basis (remaining - count) ((input.drop count).content ++ rest)).after bs :=
        fun rest => by
          have hc : input.content = bs ++ (input.drop count).content := by
            rw [Queue.content_drop, hfront, List.take_append_drop]
          rw [← hl, ← readInserted_append basis (by omega), ← List.append_assoc, hl, ← hc]
      simp only [move, if_neg hr, if_neg he]
      refine ⟨⟨h.holds, h.basisSize, ?_⟩, ?_, by simp, by simp, by simp⟩
      · simp only [record]
        split
        · rfl
        · exact ⟨rfl, by omega⟩
      · refine keeps_of_reading bs (fun rest => ?_) rfl rfl rfl ?_
        · by_cases hc : remaining = min remaining (min input.length output.room)
          · have h0 : remaining - count = 0 := by omega
            simp only [reading, record, hread, if_pos hc, h0, readInserted_zero]
            rfl
          · simp only [reading, record, hread, if_neg hc]
            rfl
        · rw [Queue.content_append, hroom]

theorem move_checksum
    (h : Works Holds basis ⟨β', size, verify, .checksum, field, hasher, written⟩) :
    Leads Holds basis ⟨⟨β', size, verify, .checksum, field, hasher, written⟩, input, output⟩
      (move ⟨⟨β', size, verify, .checksum, field, hasher, written⟩, input, output⟩) := by
  obtain ⟨q, hqe, hqc, ⟨bs, hc, hl, hcont⟩ | ⟨hc, hnil, hl⟩⟩ := Field.collect_spec h.stage input
  · have hread : ∀ rest, readClosing (field.bytes ++ (input.content ++ rest)) =
        ⟨[], .closed (.ofInitial bs) (q.content ++ rest)⟩ := fun rest => by
      rw [← List.append_assoc, hcont, List.append_assoc, readClosing_field hl]
    simp only [move, hc, checkDigest]
    by_cases hd : (verify && Digest.ofInitial bs != hasher.digest) = true
    · rw [if_pos hd]
      refine ⟨breaks_of_refuses rfl fun rest _ => ?_, hqe, hqc, rfl⟩
      simp only [reading, hread, foresee, Ending.refuses, Blake3.Hasher.update_nil, if_pos hd]
    · rw [if_neg hd]
      refine ⟨⟨h.holds, h.basisSize, rfl⟩, ⟨[], (List.append_nil _).symm, fun rest _ => ?_⟩,
        hqe, hqc, rfl⟩
      simp only [Outlook.ahead, outlook, reading, hread, foresee, Future.after_nil,
        Blake3.Hasher.update_nil]
      rw [Ending.refuses_of_agrees (q.content ++ rest) hd]
  · simp only [move, hc]
    exact starves_of_field h hl (by simp) hqe hqc hnil fun rest => by
      simp only [reading, List.append_assoc]

theorem move_done (h : Works Holds basis ⟨β', size, verify, .done, field, hasher, written⟩) :
    Leads Holds basis ⟨⟨β', size, verify, .done, field, hasher, written⟩, input, output⟩
      (move ⟨⟨β', size, verify, .done, field, hasher, written⟩, input, output⟩) := by
  by_cases he : input.isEmpty = true
  · simp only [move, if_pos he]
    exact ⟨h, Outlook.Keeps.refl _ _, ⟨rfl, rfl, rfl⟩, input.isEmpty_iff.mp he,
      by simp⟩
  · simp only [move, if_neg he]
    refine ⟨breaks_of_refuses rfl fun rest _ => ?_, rfl, rfl, rfl⟩
    have hpos : 0 < input.length := by
      rw [← Queue.length_content]
      exact List.length_pos_iff.mpr fun hn => he (input.isEmpty_iff.mpr hn)
    refine ⟨input.length, hpos, ?_, rfl⟩
    rw [List.length_append, Queue.length_content]
    exact Nat.le_add_right _ _

/-- **A move reads the front of what is left of the delta**, or refuses it as it deserves. -/
theorem move_spec (hb : Basis.Faithful Holds) (h : Works Holds basis b.state) :
    Leads Holds basis b (move b) := by
  obtain ⟨⟨β', size, verify, stage, field, hasher, written⟩, input, output⟩ := b
  cases stage with
  | mark => exact move_mark h
  | opcode => exact move_opcode h
  | copyRange => exact move_copyRange h
  | copying => exact move_copying hb h
  | insertLength => exact move_insertLength h
  | inserting => exact move_inserting h
  | checksum => exact move_checksum h
  | done => exact move_done h

/-! ## Moves until something is lacking -/

/-- What moves until something is lacking lead to. -/
def Arrives (Holds : β → Bytes → Prop) (basis : Bytes) (b : Bench (Patcher β)) :
    Except TransferError Halt × Bench (Patcher β) → Prop
  | (.ok reason, c) =>
    Works Holds basis c.state ∧ (outlook Holds basis).Keeps b c ∧ Alongside b c ∧ Halts reason c
  | (.error e, c) => (outlook Holds basis).Breaks b c (.error e) ∧ Alongside b c

omit [Basis β] in
theorem Alongside.trans {d : Bench (Patcher β)} (h : Alongside b c) (h' : Alongside c d) :
    Alongside b d :=
  ⟨h'.ended.trans h.ended, h'.inputCapacity.trans h.inputCapacity,
    h'.outputCapacity.trans h.outputCapacity⟩

omit [Basis β] in
theorem Arrives.of_next {result : Except TransferError Halt × Bench (Patcher β)}
    (hk : (outlook Holds basis).Keeps b c) (ha : Alongside b c)
    (h : Arrives Holds basis c result) : Arrives Holds basis b result := by
  obtain ⟨e | reason, d⟩ := result
  · obtain ⟨hbreaks, ha'⟩ := h
    exact ⟨hk.breaks ha.ended hbreaks, ha.trans ha'⟩
  · obtain ⟨hw, hk', ha', hh⟩ := h
    exact ⟨hw, hk.trans ha.ended hk', ha.trans ha', hh⟩

theorem moves_spec (hb : Basis.Faithful Holds) (h : Works Holds basis b.state) :
    Arrives Holds basis b (moves b) := by
  induction b using moves.induct with
  | case1 b c hmove hlt ih =>
    have hl := move_spec hb h
    rw [hmove] at hl
    obtain ⟨hw, hk, ha⟩ := hl
    rw [moves_of_next hmove]
    exact (ih hw).of_next hk ha
  | case2 b reason c hmove =>
    have hl := move_spec hb h
    rw [hmove] at hl
    rw [moves_of_halt hmove]
    exact hl
  | case3 b e c hmove =>
    have hl := move_spec hb h
    rw [hmove] at hl
    rw [moves_of_fail hmove]
    exact hl

/-! ## Steps -/

omit [Basis β] in
/-- Where nothing follows, a delta that is not closed ends early. -/
theorem reading_nil {p : Patcher β} (h : Works Holds basis p) (hd : p.stage ≠ .done)
    (hc : ∀ offset remaining, p.stage ≠ .copying offset remaining) :
    p.reading basis [] = .early := by
  have hfit := h.stage
  unfold reading
  cases hs : p.stage with
  | mark =>
    rw [hs] at hfit
    simp only [List.append_nil]
    rw [readDelta, if_pos (show p.field.bytes.length < deltaMark.length from hfit)]
  | opcode => simp only [readInstructions]
  | copyRange =>
    rw [hs] at hfit
    simp only [List.append_nil]
    rw [readCopy, if_pos (show p.field.bytes.length < 12 from hfit)]
  | copying offset remaining => exact absurd hs (hc offset remaining)
  | insertLength =>
    rw [hs] at hfit
    simp only [List.append_nil]
    rw [readInsertion, if_pos (show p.field.bytes.length < 4 from hfit)]
  | inserting remaining =>
    rw [hs] at hfit
    simp only
    rw [readInserted, if_pos (show [].length < remaining from hfit.2)]
    rfl
  | checksum =>
    rw [hs] at hfit
    simp only [List.append_nil]
    rw [readClosing, if_pos (show p.field.bytes.length < digestLength from hfit)]
  | done => exact absurd hs hd

theorem respects_of_arrives (hm : Arrives Holds basis b (moves b)) :
    (outlook Holds basis).Respects b ((step b).1.mapError .error) (step b).2 := by
  rcases hmoves : moves b with ⟨e | reason, c⟩ <;> rw [hmoves] at hm
  · obtain ⟨hbreaks, ha⟩ := hm
    rw [step_of_moves_error hmoves]
    exact .of_error hbreaks ha.ended ha.inputCapacity ha.outputCapacity
  · obtain ⟨hw, hk, ha, hh⟩ := hm
    rw [step_of_moves hmoves]
    by_cases hd : c.state.stage = .done
    · rw [if_pos hd]
      refine .of_ok hw hk ha.ended ha.inputCapacity ha.outputCapacity fun hdone => ?_
      have hended : c.input.ended = true := by
        by_cases he : c.input.ended = true
        · exact he
        · simp [he] at hdone
      refine ⟨hended, ?_⟩
      have hr : c.state.reading basis (c.input.content ++ []) = ⟨[], .compared []⟩ := by
        rw [content_of_done hh hd, reading, hd]
        rfl
      simp only [Outlook.ahead, outlook, hr]
      refine ⟨rfl, fun f hf => ?_⟩
      obtain ⟨n, hpos, hle, -⟩ := hf
      exact absurd hle (Nat.not_le_of_gt hpos)
    · rw [if_neg hd]
      by_cases hend : reason = .starved ∧ c.input.atEnd = true
      · rw [if_pos hend]
        obtain ⟨rfl, hat⟩ := hend
        obtain ⟨hended, hnil⟩ := c.input.atEnd_iff.mp hat
        refine .of_error (hk.breaks ha.ended (breaks_of_refuses rfl fun rest hrest => ?_))
          ha.ended ha.inputCapacity ha.outputCapacity
        rw [hnil, hrest hended, List.append_nil, reading_nil hw hd hh.2]
        rfl
      · rw [if_neg hend]
        exact .of_ok hw hk ha.ended ha.inputCapacity ha.outputCapacity fun hc => by cases hc

/-- **No step changes what a patcher will put out, or why it refuses its delta.** -/
theorem sound (hb : Basis.Faithful Holds) : (outlook Holds basis).Sound where
  served h hv := by
    change Works Holds basis _
    rw [hv.state]
    exact h
  step {b c result} h hstep := by
    obtain ⟨rfl, rfl⟩ := eq_of_step hstep
    exact respects_of_arrives (moves_spec hb h)

/-! ## What a patcher waits for -/

omit [Basis β] in
theorem Works.fits {p : Patcher β} (h : Works Holds basis p) : Fits p := by
  rw [Fits, h.basisSize]
  exact h.stage

/-- **A patcher waits only for input or for room.** -/
theorem prompt : (outlook Holds basis).Prompt Owes where
  served := Owes.served
  owes h hstep := owes_of_blocked h.fits (step_of_transducer hstep)
  pays h ho hr hstep := pays_of_owes h.fits ho hr (step_of_transducer hstep)

end Patcher

end BlockSync
