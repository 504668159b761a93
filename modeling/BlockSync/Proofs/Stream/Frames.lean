import BlockSync.Proofs.Endian
import BlockSync.Proofs.Stream.Flow
import BlockSync.Proofs.Stream.Sinks

/-!
# Frames, all at once

* `Frame.flow`: the flow of the payloads of the frames on a wire;
* **`FramedSource.delivers`**: a framed source delivers it, however the wire is read;
* `Frame.flow_frame`: the payload of a frame in front of others;
* **`FramedSink.faithful`**: what a framed sink writes carries the chunks that were pushed to it.
-/

namespace BlockSync

/-! ## The payloads on a wire -/

namespace Frame

/-- How a reader stops at the end of its flow. -/
def stopOf : Except Fault Unit → Stop
  | .ok () => .ended
  | .error f => .fault f

/-- The payloads of the frames on a wire up to that of the last frame. -/
def flowFrom (ending : Except Fault Unit) : Bytes → Flow TransferError
  | upper :: lower :: rest =>
    let header := Header.decode upper lower
    let length := header.length.toNat
    if length ≤ rest.length then
      if header.last then ⟨rest.take length, .ok ()⟩
      else (flowFrom ending (rest.drop length)).after (rest.take length)
    else ⟨[], .error (cutShort .closedInPayload (stopOf ending))⟩
  | _ => ⟨[], .error (cutShort .closedInHeader (stopOf ending))⟩
termination_by bs => bs.length
decreasing_by simp only [List.length_drop, List.length_cons]; omega

/-- The payloads of the frames on a wire. -/
def flow (wire : Flow Fault) : Flow TransferError := flowFrom wire.ending wire.bytes

/-- The payloads on a wire behind a header. -/
def bodyFlow (header : Header) (wire : Flow Fault) : Flow TransferError :=
  let length := header.length.toNat
  if length ≤ wire.bytes.length then
    if header.last then ⟨wire.bytes.take length, .ok ()⟩
    else (flow ⟨wire.bytes.drop length, wire.ending⟩).after (wire.bytes.take length)
  else ⟨[], .error (cutShort .closedInPayload (stopOf wire.ending))⟩

theorem flow_header (upper lower : UInt8) (wire : Flow Fault) :
    flow (wire.after [upper, lower]) = bodyFlow (.decode upper lower) wire := by
  rw [flow, Flow.after]
  simp only [List.cons_append, List.nil_append]
  rw [flowFrom]
  rfl

theorem flow_of_short {wire : Flow Fault} (h : wire.bytes.length < headerLength) :
    flow wire = ⟨[], .error (cutShort .closedInHeader (stopOf wire.ending))⟩ := by
  obtain ⟨bytes, ending⟩ := wire
  match bytes, h with
  | [], _ => rw [flow, flowFrom]; simp
  | [b], _ => rw [flow, flowFrom]; simp
  | _ :: _ :: _, h => simp only [headerLength, List.length_cons] at h; omega

theorem bodyFlow_after {header : Header} {payload : Bytes} (wire : Flow Fault)
    (h : payload.length = header.length.toNat) :
    bodyFlow header (wire.after payload) =
      if header.last then ⟨payload, .ok ()⟩ else (flow wire).after payload := by
  have hl : header.length.toNat ≤ (payload ++ wire.bytes).length := by
    rw [List.length_append]; omega
  simp only [bodyFlow, Flow.after, ← h, List.take_left, List.drop_left] at hl ⊢
  rw [if_pos hl]

/-- A frame that carries nothing leaves the flow behind it. -/
theorem bodyFlow_of_skipped {header : Header} (h : (header.isEmpty && !header.last) = true)
    (wire : Flow Fault) :
    header.length.toNat = 0 ∧ header.last = false ∧ bodyFlow header wire = flow wire := by
  obtain ⟨he, hl⟩ : header.isEmpty = true ∧ header.last = false := by simpa using h
  have hz : header.length.toNat = 0 := by
    have : header.length = 0 := by simpa [Header.isEmpty] using he
    rw [this]
    rfl
  have hb : bodyFlow header (wire.after []) = _ := bodyFlow_after wire hz.symm
  rw [hl, if_neg (by decide), Flow.after_nil, Flow.after_nil] at hb
  exact ⟨hz, hl, hb⟩

theorem bodyFlow_of_short {header : Header} {wire : Flow Fault}
    (h : wire.bytes.length < header.length.toNat) :
    bodyFlow header wire = ⟨[], .error (cutShort .closedInPayload (stopOf wire.ending))⟩ := by
  rw [bodyFlow, if_neg (by omega)]

theorem length_flowFrom_le (ending : Except Fault Unit) (bs : Bytes) :
    (flowFrom ending bs).bytes.length ≤ bs.length := by
  induction bs using flowFrom.induct with
  | case1 upper lower rest header length hl hlast =>
    rw [flowFrom, if_pos hl, if_pos hlast]
    simp only [List.length_take, List.length_cons]; omega
  | case2 upper lower rest header length hl hlast ih =>
    have hlen : length = (Header.decode upper lower).length.toNat := rfl
    rw [flowFrom, if_pos hl, if_neg hlast, ← hlen]
    simp only [Flow.after, List.length_append, List.length_take, List.length_cons,
      List.length_drop] at ih ⊢
    omega
  | case3 upper lower rest header length hl =>
    rw [flowFrom, if_neg hl]
    exact Nat.zero_le _
  | case4 bs h =>
    rw [flowFrom]
    · exact Nat.zero_le _
    · exact h

/-! ## Reading frames -/

theorem readHeader_of_short {r r' : Reader} {bs : Bytes} {stop : Stop}
    (hr : r.gather headerLength = (bs, stop, r')) (h : bs.length < headerLength) :
    readHeader r = (.error (cutShort .closedInHeader stop), r') := by
  unfold readHeader
  rw [hr]
  match bs, h with
  | [], _ => rfl
  | [b], _ => rfl
  | _ :: _ :: _, h => simp only [headerLength, List.length_cons] at h; omega

/-- A header is read from the front of a wire. -/
theorem readHeader_spec (r : Reader) :
    match readHeader r with
    | (.ok header, r') => flow r.flow = bodyFlow header r'.flow
    | (.error e, _) => flow r.flow = ⟨[], .error e⟩ := by
  have hg := r.gather_spec headerLength
  rcases hr : r.gather headerLength with ⟨bs, _ | _ | e, r'⟩ <;> rw [hr] at hg
  · match bs, hg with
    | [upper, lower], hg =>
      have hh : readHeader r = (.ok (.decode upper lower), r') := by rw [readHeader, hr]
      rw [hh, hg.2]
      exact flow_header upper lower r'.flow
  · rw [readHeader_of_short hr hg.1, hg.2]
    exact flow_of_short hg.1
  · rw [readHeader_of_short hr hg.1, hg.2]
    exact flow_of_short hg.1

/-- A payload is read from the front of a wire. -/
theorem readBody_spec (header : Header) (r : Reader) :
    match readBody r header.length.toNat with
    | (.ok (), bs, r') => bs.length = header.length.toNat ∧
        bodyFlow header r.flow =
          if header.last then ⟨bs, .ok ()⟩ else (flow r'.flow).after bs
    | (.error e, _, _) => bodyFlow header r.flow = ⟨[], .error e⟩ := by
  have hg := r.gather_spec header.length.toNat
  unfold readBody
  rcases hr : r.gather header.length.toNat with ⟨bs, _ | _ | e, r'⟩ <;> rw [hr] at hg
  · refine ⟨hg.1, ?_⟩
    rw [hg.2]
    exact bodyFlow_after r'.flow hg.1
  · have hshort : r.flow.bytes.length < header.length.toNat := by rw [hg.2]; exact hg.1
    have hflow := bodyFlow_of_short hshort
    rw [hg.2] at hflow ⊢
    exact hflow
  · have hshort : r.flow.bytes.length < header.length.toNat := by rw [hg.2]; exact hg.1
    have hflow := bodyFlow_of_short hshort
    rw [hg.2] at hflow ⊢
    exact hflow

end Frame

namespace FramedSource

/-- The staged bytes that are still to be delivered. -/
def rest (s : FramedSource) : Bytes := s.staged.toList.drop s.delivered

/-- The flow of a framed source. -/
def flow (s : FramedSource) : Flow TransferError :=
  (if s.peerDone then ⟨[], .ok ()⟩ else Frame.flow s.reader.flow).after s.rest

theorem length_rest (s : FramedSource) : s.rest.length = s.undelivered := by
  simp [rest, undelivered]

theorem nextHeader_of_error {s : FramedSource} {e : TransferError} {r : Reader}
    (h : Frame.readHeader s.reader = (.error e, r)) :
    s.nextHeader = (.error e, { s with reader := r }) := by
  rw [nextHeader]
  split
  · next h' => rw [h] at h'; cases h'; rfl
  · next h' => rw [h] at h'; cases h'

theorem nextHeader_of_ok {s : FramedSource} {header : Frame.Header} {r : Reader}
    (h : Frame.readHeader s.reader = (.ok header, r)) :
    let s' : FramedSource :=
      { s with reader := r, frames := s.frames + 1, peerDone := header.last }
    s.nextHeader = if header.isEmpty && !header.last then s'.nextHeader else (.ok header, s') := by
  rw [nextHeader]
  split
  · next h' => rw [h] at h'; cases h'
  · next h' => rw [h] at h'; cases h'; rfl

/-- Headers are read until a frame carries something or is the last. -/
theorem nextHeader_spec (s : FramedSource) :
    match s.nextHeader with
    | (.ok header, s') => Frame.flow s.reader.flow = Frame.bodyFlow header s'.reader.flow ∧
        s'.peerDone = header.last ∧ s'.rest = s.rest ∧
        (header.last = false → 0 < header.length.toNat)
    | (.error e, _) => Frame.flow s.reader.flow = ⟨[], .error e⟩ := by
  induction s using nextHeader.induct with
  | case1 s e r h =>
    have hr := Frame.readHeader_spec s.reader
    rw [h] at hr
    rw [nextHeader_of_error h]
    exact hr
  | case2 s header r h hlt s' hskip ih =>
    have hr := Frame.readHeader_spec s.reader
    rw [h] at hr
    rw [nextHeader_of_ok h, if_pos hskip]
    rw [hr, (Frame.bodyFlow_of_skipped hskip r.flow).2.2]
    exact ih
  | case3 s header r h hlt hskip =>
    have hr := Frame.readHeader_spec s.reader
    rw [h] at hr
    rw [nextHeader_of_ok h, if_neg hskip]
    refine ⟨hr, rfl, rfl, fun hl => ?_⟩
    have he : ¬ header.isEmpty = true := fun he => hskip (by simp [he, hl])
    have hz : header.length ≠ 0 := by simpa [Frame.Header.isEmpty] using he
    exact Nat.pos_of_ne_zero fun h0 => hz (UInt16.toNat_inj.mp h0)

/-- What is staged is delivered as far as there is room. -/
theorem deliver_eq (s : FramedSource) (room : Nat) :
    ∃ s', s.deliver room =
        (.of (s.rest.take room) (s.peerDone && decide (s.rest.length ≤ room)), s') ∧
      s'.rest = s.rest.drop room ∧ s'.peerDone = s.peerDone ∧ s'.reader = s.reader := by
  let count := min s.undelivered room
  let s' : FramedSource := { s with delivered := s.delivered + count }
  have hcount : count = min s.rest.length room := by rw [length_rest]
  have hbs : (s.staged.extract s.delivered (s.delivered + count)).toList = s.rest.take room := by
    have hslice : (s.staged.extract s.delivered (s.delivered + count)).toList = s.rest.take count :=
      slice_eq ..
    rw [hslice, hcount, Nat.min_comm, ← List.take_take, List.take_length]
  have hrest : s'.rest = s.rest.drop room := by
    have hdrop : s'.rest = s.rest.drop count := by simp [s', rest]
    rw [hdrop, hcount]
    rcases Nat.le_total s.rest.length room with h | h
    · rw [Nat.min_eq_left h, List.drop_length, List.drop_of_length_le h]
    · rw [Nat.min_eq_right h]
  have hended : (s'.undelivered == 0) = decide (s.rest.length ≤ room) := by
    rw [← length_rest, hrest, List.length_drop, Bool.eq_iff_iff, beq_iff_eq, decide_eq_true_iff,
      Nat.sub_eq_zero_iff_le]
  refine ⟨s', ?_, hrest, rfl, rfl⟩
  rw [← hbs, ← hended]
  rfl

theorem deliver_spec {s : FramedSource} {room : Nat} (hroom : 0 < room) (h : 0 < s.undelivered) :
    Source.Outcome (fun (s : FramedSource) f => s.flow = f) s.flow room
      (.ok (s.deliver room).1, (s.deliver room).2) := by
  obtain ⟨s', hd, hrest, hp, hreader⟩ := s.deliver_eq room
  have hlen : (s.rest.take room).length ≤ room := List.length_take_le ..
  have hflow : s.flow = s'.flow.after (s.rest.take room) := by
    rw [flow, flow, Flow.after_after, hrest, hp, hreader, List.take_append_drop]
  rw [hd]
  cases hend : s.peerDone && decide (s.rest.length ≤ room) with
  | false =>
    refine Source.outcome_more s' ?_ hlen hflow rfl
    apply List.ne_nil_of_length_pos
    rw [List.length_take, length_rest]
    omega
  | true =>
    obtain ⟨hdone, hall⟩ : s.peerDone = true ∧ s.rest.length ≤ room := by simpa using hend
    refine Source.outcome_last s' hlen ?_
    rw [hflow, flow, hrest, List.drop_of_length_le hall, hp, if_pos hdone, Flow.after_nil]
    simp [Flow.after]

theorem stage_of_error {s : FramedSource} {length : Nat} {e : TransferError} {bs : Bytes}
    {r : Reader} (h : Frame.readBody s.reader length = (.error e, bs, r)) :
    (s.stage length).1 = .error e := by
  rw [stage, h]

theorem stage_of_ok {s : FramedSource} {length : Nat} {bs : Bytes} {r : Reader}
    (h : Frame.readBody s.reader length = (.ok (), bs, r)) (hl : bs.length = length) :
    s.stage length = (.ok (), { s with reader := r, staged := bs.toArray, delivered := 0 }) := by
  have hrest : slice s.staged length (length - length) = [] := by
    rw [Nat.sub_self, slice_eq, List.take_zero]
  rw [stage, h]
  simp only [hl, hrest]
  simp

/-- Deliver the payload behind a header, or the part of it for which there is room. -/
def takeBody (s : FramedSource) (header : Frame.Header) (room : Nat) :
    Except TransferError Delivery × FramedSource :=
  let length := header.length.toNat
  if length ≤ room then
    let (result, bs, r) := Frame.readBody s.reader length
    (result.map fun _ => .of bs header.last, { s with reader := r })
  else
    match s.stage length with
    | (.error e, s) => (.error e, s)
    | (.ok (), s) =>
      let (pulled, s) := s.deliver room
      (.ok pulled, s)

/-- What is delivered behind the next header that counts. -/
def takeNext (s : FramedSource) (room : Nat) : Except TransferError Delivery × FramedSource :=
  match s.nextHeader with
  | (.error e, s) => (.error e, s)
  | (.ok header, s) => s.takeBody header room

theorem pull_eq (s : FramedSource) (room : Nat) : s.pull room =
    if 0 < s.undelivered then (.ok (s.deliver room).1, (s.deliver room).2)
    else if s.peerDone then (.ok (.of [] true), s) else s.takeNext room := rfl

theorem takeBody_spec {s : FramedSource} {header : Frame.Header} {room : Nat} (hroom : 0 < room)
    (hnil : s.rest = []) (hlast : s.peerDone = header.last)
    (hpos : header.last = false → 0 < header.length.toNat) :
    Source.Outcome (fun (s : FramedSource) f => s.flow = f) (Frame.bodyFlow header s.reader.flow)
      room (s.takeBody header room) := by
  have hr := Frame.readBody_spec header s.reader
  unfold takeBody
  dsimp only
  rcases hb : Frame.readBody s.reader header.length.toNat with ⟨e | ⟨⟩, bs, r⟩ <;> rw [hb] at hr
  · -- the payload is cut short
    rw [hr]
    by_cases hl : header.length.toNat ≤ room
    · rw [if_pos hl]
      exact rfl
    · rw [if_neg hl]
      have he := stage_of_error hb
      rcases hst : s.stage header.length.toNat with ⟨e' | ⟨⟩, s'⟩ <;> rw [hst] at he
      · cases he
        exact rfl
      · cases he
  · obtain ⟨hlen, hbf⟩ := hr
    rw [hbf]
    by_cases hl : header.length.toNat ≤ room
    · have hlr : bs.length ≤ room := by omega
      rw [if_pos hl]
      cases hlb : header.last with
      | true => exact Source.outcome_last { s with reader := r } hlr rfl
      | false =>
        have hne : bs ≠ [] := List.ne_nil_of_length_pos (by rw [hlen]; exact hpos hlb)
        have hflow : flow { s with reader := r } = Frame.flow r.flow := by
          have hp : ¬ s.peerDone = true := by simp [hlast, hlb]
          simp only [rest] at hnil
          simp only [flow, rest, if_neg hp, hnil, Flow.after_nil]
        refine Source.outcome_more { s with reader := r } hne hlr rfl ?_
        exact hflow
    · -- it is staged
      rw [if_neg hl, stage_of_ok hb hlen]
      let s' : FramedSource := { s with reader := r, staged := bs.toArray, delivered := 0 }
      have hu : 0 < s'.undelivered := by simp [s', undelivered]; omega
      have hflow : s'.flow =
          if header.last then ⟨bs, .ok ()⟩ else (Frame.flow r.flow).after bs := by
        simp only [s', flow, rest, hlast, List.drop_zero]
        split <;> simp [Flow.after]
      rw [← hflow]
      exact deliver_spec hroom hu

theorem faithful : Source.Faithful fun (s : FramedSource) f => s.flow = f where
  available {s f} h := by
    subst h
    have hw : (Frame.flow s.reader.flow).bytes.length ≤ s.reader.available :=
      Nat.le_trans (Frame.length_flowFrom_le _ _) s.reader.length_flow_le
    change _ ≤ s.undelivered + s.reader.available
    rw [flow, Flow.after, List.length_append, length_rest]
    split
    · exact Nat.le_add_right _ _
    · omega
  pull {s f} h room hroom := by
    subst h
    change Source.Outcome _ _ room (s.pull room)
    unfold pull
    by_cases hu : 0 < s.undelivered
    · rw [if_pos hu]
      exact deliver_spec hroom hu
    · have hnil : s.rest = [] := List.eq_nil_of_length_eq_zero (by rw [length_rest]; omega)
      rw [if_neg hu]
      by_cases hp : s.peerDone = true
      · rw [if_pos hp]
        refine Source.outcome_last s (Nat.zero_le _) ?_
        rw [flow, hnil, if_pos hp, Flow.after_nil]
      · have hflow : s.flow = Frame.flow s.reader.flow := by
          rw [flow, hnil, if_neg hp, Flow.after_nil]
        rw [if_neg hp, hflow]
        have hn := nextHeader_spec s
        rcases hs : s.nextHeader with ⟨e | header, s'⟩ <;> rw [hs] at hn
        · rw [hn]
          exact rfl
        · obtain ⟨hbody, hlast, hrest, hpos⟩ := hn
          rw [hbody]
          exact takeBody_spec hroom (hrest.trans hnil) hlast hpos

/-- **A framed source delivers the payloads of the frames on its wire, up to that of the last
frame.** -/
theorem delivers (s : FramedSource) : Source.Delivers s s.flow := ⟨_, faithful, rfl⟩

end FramedSource

/-! ## Writing frames -/

namespace Frame

/-- The length of a payload that a frame can carry is in its header. -/
theorem toNat_length {n : Nat} (h : n ≤ framePayloadLimit) : (UInt16.ofNat n).toNat = n := by
  rw [UInt16.toNat_ofNat']
  exact Nat.mod_eq_of_lt (Nat.lt_of_le_of_lt h (by decide))

/-- The two bytes of a header are read as that header. -/
theorem Header.decode_encode {header : Header} (h : header.length.toNat ≤ framePayloadLimit) :
    ∃ upper lower, header.encode = [upper, lower] ∧ Header.decode upper lower = header := by
  obtain ⟨length, last⟩ := header
  have hlen : (Header.encode ⟨length, last⟩).length = 2 := BigEndian.length_encode ..
  obtain ⟨upper, lower, he⟩ := List.length_eq_two.mp hlen
  refine ⟨upper, lower, he, ?_⟩
  have hd : BigEndian.decode [upper, lower] = 2 * length.toNat + last.toNat := by
    have hb : last.toNat ≤ 1 := Bool.toNat_le last
    rw [← he, Header.encode, BigEndian.decode_encode]
    simp only [framePayloadLimit] at h
    simp only [headerLength]
    omega
  have hdiv : (2 * length.toNat + last.toNat) / 2 = length.toNat := by cases last <;> simp; omega
  have hmod : ((2 * length.toNat + last.toNat) % 2 == 1) = last := by cases last <;> simp
  rw [Header.decode, hd]
  simp only [hdiv, hmod, UInt16.ofNat_toNat]

/-- The payload of a frame in front of others. -/
theorem flow_frame {payload : Bytes} (h : payload.length ≤ framePayloadLimit) (last : Bool)
    (rest : Flow Fault) :
    flow (rest.after (Header.encode ⟨UInt16.ofNat payload.length, last⟩ ++ payload)) =
      if last then ⟨payload, .ok ()⟩ else (flow rest).after payload := by
  have hlen := toNat_length h
  have hle : (⟨UInt16.ofNat payload.length, last⟩ : Header).length.toNat ≤ framePayloadLimit := by
    rw [hlen]; exact h
  obtain ⟨upper, lower, he, hd⟩ := Header.decode_encode hle
  rw [he, ← Flow.after_after, flow_header, hd, bodyFlow_after rest hlen.symm]

theorem write_of_reliable {w : Writer} (hw : w.Reliable) {payload : Bytes}
    (h : payload.length ≤ framePayloadLimit) (last : Bool) :
    ∃ w', Frame.write w payload last = (.ok (), w') ∧ w'.Reliable ∧ w'.written.toList =
      w.written.toList ++ (Header.encode ⟨UInt16.ofNat payload.length, last⟩ ++ payload) := by
  obtain ⟨w₁, h₁, hr₁, hc₁⟩ := Writer.writeAll_of_reliable hw
    (Header.encode ⟨UInt16.ofNat payload.length, last⟩)
  obtain ⟨w₂, h₂, hr₂, hc₂⟩ := Writer.writeAll_of_reliable hr₁ payload
  obtain ⟨w₃, h₃, hr₃, hc₃⟩ := Writer.flush_of_reliable hr₂
  refine ⟨w₃, ?_, hr₃, by rw [hc₃, hc₂, hc₁, List.append_assoc]⟩
  simp only [Frame.write, Header.ofLength, if_pos h, h₁, h₂, h₃]
  rfl

end Frame

namespace FramedSink

/-- Behind what was written before, frames were written whose payloads are together the bytes `bs`. -/
def Holds (before : Bytes) (s : FramedSink) (bs : Bytes) (ended : Bool) : Prop :=
  s.writer.Reliable ∧ s.finished = ended ∧ ∃ wire, s.writer.written.toList = before ++ wire ∧
    ∀ rest : Flow Fault, Frame.flow (rest.after wire) =
      if ended then ⟨bs, .ok ()⟩ else (Frame.flow rest).after bs

/-- Nothing has been pushed to a new sink. -/
theorem holds_new : FramedSink.Holds [] { writer := {} } [] false :=
  ⟨⟨rfl, rfl⟩, rfl, [], rfl, fun rest => by rw [Flow.after_nil]; rfl⟩

/-- After the last frame none is taken. -/
theorem push_of_finished {s : FramedSink} (h : s.finished = true) (chunk : Bytes) (last : Bool) :
    Sink.push s chunk last = (.error (.framing .pushAfterEnd), s) := by
  change s.push chunk last = _
  rw [FramedSink.push, if_pos h]

/-- Nothing is taken of a chunk that does not fit a frame. -/
theorem push_of_long (s : FramedSink) {chunk : Bytes} (h : framePayloadLimit < chunk.length)
    (last : Bool) : ∃ cause, Sink.push s chunk last = (.error (.framing cause), s) := by
  change ∃ cause, s.push chunk last = _
  rw [FramedSink.push]
  cases s.finished with
  | true => exact ⟨_, rfl⟩
  | false => exact ⟨_, if_pos h⟩

/-- A chunk that fits a frame is written as one, if the writer never fails. -/
theorem push_of_reliable {s : FramedSink} (hr : s.writer.Reliable) (hf : s.finished = false)
    {chunk : Bytes} (hl : chunk.length ≤ framePayloadLimit) (last : Bool) :
    ∃ s', Sink.push s chunk last = (.ok (), s') ∧ s'.writer.Reliable ∧ s'.finished = last ∧
      s'.writer.written.toList = s.writer.written.toList ++
        (Frame.Header.encode ⟨UInt16.ofNat chunk.length, last⟩ ++ chunk) := by
  obtain ⟨w, hwrite, hr', hc⟩ := Frame.write_of_reliable hr hl last
  refine ⟨⟨w, s.frames + 1, last⟩, ?_, hr', rfl, hc⟩
  change s.push chunk last = _
  rw [FramedSink.push, if_neg (by simp [hf]), if_neg (by omega), hwrite]

/-- **What a framed sink writes carries the chunks that were pushed to it.** -/
theorem faithful (before : Bytes) :
    Sink.Faithful (FramedSink.Holds before) true framePayloadLimit where
  takesOutput _ := rfl
  push {s bs} _ h chunk hl last := by
    obtain ⟨hr, hf, wire, hw, hflow⟩ := h
    obtain ⟨s', hpush, hr', hf', hc⟩ := push_of_reliable hr hf hl last
    refine ⟨s', hpush, hr', hf', _, by rw [hc, hw, List.append_assoc], fun rest => ?_⟩
    rw [← Flow.after_after, hflow, if_neg (by decide), Frame.flow_frame hl]
    cases last <;> simp [Flow.after]

end FramedSink

end BlockSync
