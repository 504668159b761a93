import BlockSync.Proofs.Stream.Frames

/-!
# There and back in frames

* `Frame.Sequel`: the frames of a stream from some point on, and what they carry;
* `Source.pulls`, `Sink.pushes`: pulls and pushes one after another;
* **`FramedSource.pull_spec`**: a pull delivers the next bytes, of which there are some before the end,
  and reads no further than the last frame;
* **`FramedSink.pulls_of_pushes`**: what is pushed chunk by chunk at one end is delivered at the other,
  pull by pull.
-/

namespace BlockSync

/-! ## One after another -/

/-- The answers to requests that are made one after another. -/
def inTurn {σ α β : Type} (ask : σ → α → β × σ) : σ → List α → List β × σ
  | s, [] => ([], s)
  | s, a :: as =>
    let (b, s) := ask s a
    let (bs, s) := inTurn ask s as
    (b :: bs, s)

/-- Pulls with the given rooms. -/
def Source.pulls {σ : Type} [Source σ] (source : σ) (rooms : List Nat) :
    List (Except TransferError Delivery) × σ :=
  inTurn Source.pull source rooms

/-- Pushes of the given chunks, of which the last one is marked. -/
def Sink.pushes {κ : Type} [Sink κ] (sink : κ) (chunks : List Bytes) (final : Bytes) :
    List (Except TransferError Unit) × κ :=
  inTurn (fun sink (chunk, last) => Sink.push sink chunk last) sink
    (chunks.map (·, false) ++ [(final, true)])

/-! ## Frames on a wire -/

namespace Frame

theorem encode_iff {payload frame : Bytes} {last : Bool} :
    encode payload last = .ok frame ↔ payload.length ≤ framePayloadLimit ∧
      frame = Header.encode ⟨UInt16.ofNat payload.length, last⟩ ++ payload := by
  unfold encode Header.ofLength
  by_cases h : payload.length ≤ framePayloadLimit
  · rw [if_pos h]
    simp [h, bind, Except.bind, pure, Except.pure, eq_comm]
  · rw [if_neg h]
    simp [h, bind, Except.bind]

/-- The frames of a stream from some point on, and what they carry. Behind the last frame there is
nothing. -/
inductive Sequel : Bool → Bytes → Bytes → Prop where
  | ended : Sequel true [] []
  | frame {chunk frame wire bs : Bytes} {last : Bool} :
    encode chunk last = .ok frame → Sequel last wire bs → Sequel false (frame ++ wire) (chunk ++ bs)

/-- Frames that carry nothing are skipped, but for the last one. -/
theorem Header.skipped_iff {chunk : Bytes} (h : chunk.length ≤ framePayloadLimit) (last : Bool) :
    (isEmpty ⟨UInt16.ofNat chunk.length, last⟩ && !last) = true ↔ chunk = [] ∧ last = false := by
  have hzero : (UInt16.ofNat chunk.length == 0) = true ↔ chunk = [] := by
    rw [beq_iff_eq, ← UInt16.toNat_inj, toNat_length h, List.eq_nil_iff_length_eq_zero]
    exact Iff.rfl
  rw [Bool.and_eq_true, Bool.not_eq_true']
  exact and_congr_left' hzero

theorem readHeader_of_reads {header : Header} (h : header.length.toNat ≤ framePayloadLimit)
    {r r' : Reader} (hr : r.Reads header.encode r') : readHeader r = (.ok header, r') := by
  obtain ⟨upper, lower, he, hd⟩ := Header.decode_encode h
  rw [he] at hr
  rw [readHeader, show r.gather headerLength = ([upper, lower], .full, r') from hr]
  simp only [hd]

theorem readBody_of_reads {payload : Bytes} {r r' : Reader} (hr : r.Reads payload r') :
    readBody r payload.length = (.ok (), payload, r') := by
  rw [readBody, show r.gather payload.length = (payload, .full, r') from hr]

end Frame

namespace FramedSource

variable {rest : Flow Fault} {wire bs unread left : Bytes} {s s' : FramedSource} {room : Nat}

/-- The payload `chunk` comes next, behind a header to which `read` has led. -/
structure Meets (s : FramedSource) (wire bs : Bytes) (header : Frame.Header) (s' : FramedSource)
    (read chunk wire' bs' : Bytes) : Prop where
  length : header.length.toNat = chunk.length
  /-- Only the last frame may carry nothing. -/
  nonempty : header.last = false → chunk ≠ []
  rest : s'.rest = s.rest
  peerDone : s'.peerDone = header.last
  reads : s.reader.Reads read s'.reader
  wire : wire = read ++ (chunk ++ wire')
  bytes : bs = chunk ++ bs'
  sequel : Frame.Sequel header.last wire' bs'

/-- Headers are read up to that of a frame that carries something or is the last. -/
theorem nextHeader_of_sequel (h : Frame.Sequel false wire bs) (hs : s.reader.flow = rest.after wire) :
    ∃ header s' read chunk wire' bs', s.nextHeader = (.ok header, s') ∧
      Meets s wire bs header s' read chunk wire' bs' := by
  generalize hd : false = done at h
  -- on the frames: those that carry nothing are skipped
  induction h generalizing s with
  | ended => cases hd
  | @frame chunk frame wire bs last hframe hseq ih =>
    obtain ⟨hle, rfl⟩ := Frame.encode_iff.mp hframe
    have hlen := Frame.toNat_length hle
    rw [List.append_assoc, ← Flow.after_after] at hs
    obtain ⟨r, hr, hflow⟩ := Reader.reads_of_flow hs
    have hheader := nextHeader_of_ok (Frame.readHeader_of_reads (by rwa [hlen]) hr)
    dsimp only at hheader
    by_cases hskip : chunk = [] ∧ last = false
    · rw [if_pos ((Frame.Header.skipped_iff hle last).mpr hskip)] at hheader
      obtain ⟨rfl, rfl⟩ := hskip
      obtain ⟨header, s', read, chunk, wire', bs', hnext, hm⟩ :=
        ih (s := { s with reader := r, frames := s.frames + 1, peerDone := false }) hflow rfl
      refine ⟨header, s', _, chunk, wire', bs', hheader.trans hnext, hm.length, hm.nonempty, hm.rest,
        hm.peerDone, hr.trans hm.reads, ?_, hm.bytes, hm.sequel⟩
      rw [List.append_nil, hm.wire, List.append_assoc]
    · rw [if_neg (mt (Frame.Header.skipped_iff hle last).mp hskip)] at hheader
      refine ⟨_, _, _, chunk, wire, bs, hheader, hlen, ?_, rfl, rfl, hr, ?_, rfl, hseq⟩
      · intro hl hc
        exact hskip ⟨hc, hl⟩
      · rw [List.append_assoc]

/-- Of a wire the source has still to read `unread`, and still to deliver `left`. -/
structure Owes (rest : Flow Fault) (s : FramedSource) (unread left : Bytes) : Prop where
  flow : s.reader.flow = rest.after unread
  sequel : ∃ bs, Frame.Sequel s.peerDone unread bs ∧ left = s.rest ++ bs

/-- A pull delivers the next bytes. It delivers some unless it tells the end, tells the end only with the
last of them or behind it, and reads nothing but a part of what is unread. -/
def Pulls (rest : Flow Fault) (r : Reader) (unread left : Bytes) (room : Nat)
    (result : Except TransferError Delivery × FramedSource) : Prop :=
  ∃ bs ended s' read unread' left', result = (.ok (.of bs ended), s') ∧
    r.Reads read s'.reader ∧ unread = read ++ unread' ∧ Owes rest s' unread' left' ∧
    left = bs ++ left' ∧ bs.length ≤ room ∧ (ended = true → left' = []) ∧ (ended = false → bs ≠ [])

/-- What was read before a pull. -/
theorem Pulls.after {r r' : Reader} {read : Bytes}
    {result : Except TransferError Delivery × FramedSource} (hr : r.Reads read r')
    (h : Pulls rest r' unread left room result) : Pulls rest r (read ++ unread) left room result := by
  obtain ⟨bs, ended, s', read', unread', left', rfl, hr', rfl, h⟩ := h
  exact ⟨bs, ended, s', read ++ read', unread', left', rfl, hr.trans hr', by rw [List.append_assoc], h⟩

theorem pulls_deliver (h : Owes rest s unread left) (hne : s.rest ≠ []) (hroom : 0 < room) :
    Pulls rest s.reader unread left room (.ok (s.deliver room).1, (s.deliver room).2) := by
  obtain ⟨s', hd, hrest, hp, hreader⟩ := s.deliver_eq room
  obtain ⟨bs, hseq, rfl⟩ := h.sequel
  rw [hd]
  refine ⟨_, _, s', [], unread, s.rest.drop room ++ bs, rfl, hreader ▸ .refl _, rfl, ⟨?_, bs, ?_, ?_⟩,
    ?_, List.length_take_le .., ?_, ?_⟩
  · rw [hreader, h.flow]
  · rwa [hp]
  · rw [hrest]
  · rw [← List.append_assoc, List.take_append_drop]
  · intro hend
    obtain ⟨hdone, hall⟩ : s.peerDone = true ∧ s.rest.length ≤ room := by simpa using hend
    rw [hdone] at hseq
    cases hseq
    rw [List.drop_of_length_le hall, List.append_nil]
  · intro _
    apply List.ne_nil_of_length_pos
    rw [List.length_take]
    have := List.length_pos_of_ne_nil hne
    omega

theorem pulls_takeBody {header : Frame.Header} {chunk : Bytes}
    (hlen : header.length.toNat = chunk.length) (hne : header.last = false → chunk ≠ [])
    (hs : s.reader.flow = rest.after (chunk ++ wire)) (hseq : Frame.Sequel header.last wire bs)
    (hp : s.peerDone = header.last) (hnil : s.rest = []) (hroom : 0 < room) :
    Pulls rest s.reader (chunk ++ wire) (chunk ++ bs) room (s.takeBody header room) := by
  rw [← Flow.after_after] at hs
  obtain ⟨r, hr, hflow⟩ := Reader.reads_of_flow hs
  have hbody := Frame.readBody_of_reads hr
  unfold takeBody
  dsimp only
  rw [hlen]
  by_cases hl : chunk.length ≤ room
  · rw [if_pos hl, hbody]
    refine ⟨chunk, header.last, { s with reader := r }, chunk, wire, bs, rfl, hr, rfl,
      ⟨hflow, bs, by rwa [hp], ?_⟩, rfl, hl, ?_, hne⟩
    · rw [show ({ s with reader := r } : FramedSource).rest = s.rest from rfl, hnil, List.nil_append]
    · intro hlast
      rw [hlast] at hseq
      cases hseq
      rfl
  · -- it is staged
    rw [if_neg hl, stage_of_ok hbody rfl]
    apply Pulls.after hr
    have hrest : ({ s with reader := r, staged := chunk.toArray, delivered := 0 } : FramedSource).rest =
        chunk := rfl
    apply pulls_deliver ⟨hflow, bs, by rwa [hp], by rw [hrest]⟩ _ hroom
    rw [hrest]
    exact List.ne_nil_of_length_pos (by omega)

/-- **A pull delivers the next bytes, and reads no further than the last frame.** -/
theorem pull_spec (h : Owes rest s unread left) (hroom : 0 < room) :
    Pulls rest s.reader unread left room (Source.pull s room) := by
  change Pulls rest s.reader unread left room (s.pull room)
  unfold pull
  by_cases hu : 0 < s.undelivered
  · rw [if_pos hu]
    exact pulls_deliver h (List.ne_nil_of_length_pos (by rwa [length_rest])) hroom
  · have hnil : s.rest = [] := List.eq_nil_of_length_eq_zero (by rw [length_rest]; omega)
    obtain ⟨bs, hseq, rfl⟩ := h.sequel
    rw [if_neg hu]
    cases hp : s.peerDone with
    | true =>
      rw [if_pos rfl]
      rw [hp] at hseq
      cases hseq
      refine ⟨[], true, s, [], [], [], rfl, .refl _, rfl, ⟨h.flow, [], ?_, ?_⟩, ?_, Nat.zero_le _,
        fun _ => rfl, nofun⟩
      · rw [hp]
        exact .ended
      · rw [hnil, List.nil_append]
      · rw [hnil, List.nil_append]
    | false =>
      rw [hp] at hseq
      obtain ⟨header, s', read, chunk, wire', bs', hnext, hm⟩ := nextHeader_of_sequel hseq h.flow
      rw [if_neg (by decide), hnext, hnil, List.nil_append, hm.bytes, hm.wire]
      have hflow : s'.reader.flow = rest.after (chunk ++ wire') := by
        apply hm.reads.flow
        rw [Flow.after_after, ← hm.wire, h.flow]
      exact (pulls_takeBody hm.length hm.nonempty hflow hm.sequel hm.peerDone (hm.rest.trans hnil)
        hroom).after hm.reads

end FramedSource

/-! ## Streams of deliveries -/

/-- How a byte string can be dealt out to pulls with the given rooms. -/
inductive Dealt : Bytes → List Nat → List Delivery → Prop where
  | nil (bs : Bytes) : Dealt bs [] []
  | pull {bs left : Bytes} {ended : Bool} {room : Nat} {rooms : List Nat} {ds : List Delivery} :
    bs.length ≤ room → (ended = true → left = []) → (ended = false → bs ≠ []) →
      Dealt left rooms ds → Dealt (bs ++ left) (room :: rooms) (.of bs ended :: ds)

namespace Dealt

variable {bs : Bytes} {rooms : List Nat} {ds : List Delivery}

/-- Each delivery fits its room, and there is something in it or the end. -/
theorem forall₂ (h : Dealt bs rooms ds) :
    List.Forall₂ (fun d room => d.count = d.bytes.length ∧ d.count ≤ room ∧
      (0 < d.count ∨ d.ended = true)) ds rooms := by
  induction h with
  | nil => exact .nil
  | @pull bs left ended room rooms ds hroom hend hmore _ ih =>
    refine .cons ⟨rfl, hroom, ?_⟩ ih
    cases ended with
    | true => exact .inr rfl
    | false => exact .inl (List.length_pos_of_ne_nil (hmore rfl))

theorem flatMap_prefix (h : Dealt bs rooms ds) : ds.flatMap (·.bytes) <+: bs := by
  induction h with
  | nil => exact List.nil_prefix
  | @pull bs left ended room rooms ds _ _ _ _ ih =>
    rw [List.flatMap_cons]
    exact (List.prefix_append_right_inj bs).mpr ih

/-- If there are more pulls than bytes all bytes are delivered. -/
theorem flatMap_eq (h : Dealt bs rooms ds) (hl : bs.length < rooms.length) :
    ds.flatMap (·.bytes) = bs := by
  induction h with
  | nil => exact absurd hl (Nat.not_lt_zero _)
  | @pull bs left ended room rooms ds _ hend hmore h ih =>
    rw [List.flatMap_cons]
    refine congrArg (bs ++ ·) ?_
    cases ended with
    | true =>
      obtain rfl := hend rfl
      exact List.prefix_nil.mp h.flatMap_prefix
    | false =>
      have hpos := List.length_pos_of_ne_nil (hmore rfl)
      rw [List.length_append, List.length_cons] at hl
      exact ih (by omega)

/-- When the end is told: with the last byte, or by the first pull behind it, and by every later one. -/
theorem ended_iff (h : Dealt bs rooms ds) {before after : List Delivery} {d : Delivery}
    (hds : ds = before ++ d :: after) :
    let delivered := before.flatMap (·.bytes)
    (d.ended = true → delivered ++ d.bytes = bs) ∧ (delivered = bs → d.ended = true) ∧
      ∀ e ∈ before, e.ended = true → d.bytes = [] ∧ d.ended = true := by
  induction h generalizing before with
  | nil => exact absurd hds.symm (List.append_ne_nil_of_right_ne_nil _ (List.cons_ne_nil _ _))
  | @pull bs left ended room rooms ds _ hend hmore h ih =>
    cases before with
    | nil =>
      obtain ⟨rfl, rfl⟩ := List.cons.inj hds
      refine ⟨?_, ?_, nofun⟩
      · intro he
        rw [hend he, List.append_nil]
        rfl
      · intro hnil
        cases ended with
        | true => rfl
        | false => exact absurd (List.append_eq_nil_iff.mp hnil.symm).1 (hmore rfl)
    | cons e before =>
      obtain ⟨rfl, hrest⟩ : Delivery.of bs ended = e ∧ ds = before ++ d :: after := List.cons.inj hds
      obtain ⟨hall, hnone, hlater⟩ := ih hrest
      have hdelivered : (Delivery.of bs ended :: before).flatMap (·.bytes) =
          bs ++ before.flatMap (·.bytes) := rfl
      rw [hdelivered]
      refine ⟨?_, ?_, ?_⟩
      · intro he
        rw [List.append_assoc, hall he]
      · intro heq
        exact hnone (List.append_cancel_left heq)
      · intro e he hended
        rcases List.mem_cons.mp he with rfl | he
        · -- behind the end there is nothing
          have hprefix := h.flatMap_prefix
          rw [hend hended, List.prefix_nil, hrest, List.flatMap_append, List.flatMap_cons,
            List.append_eq_nil_iff, List.append_eq_nil_iff] at hprefix
          obtain ⟨hdelivered, hbytes, -⟩ := hprefix
          exact ⟨hbytes, hnone (hdelivered.trans (hend hended).symm)⟩
        · exact hlater e he hended

end Dealt

/-! ## There and back -/

/-- Pulls one after another deliver what is left, and read no further than the last frame. -/
theorem FramedSource.pulls_spec {rest : Flow Fault} {s : FramedSource} {unread left : Bytes}
    {rooms : List Nat} (h : Owes rest s unread left) (hrooms : ∀ room ∈ rooms, 0 < room) :
    ∃ ds s' read, Source.pulls s rooms = (ds.map .ok, s') ∧ s.reader.Reads read s'.reader ∧
      read <+: unread ∧ Dealt left rooms ds := by
  induction rooms generalizing s unread left with
  | nil => exact ⟨[], s, [], rfl, .refl _, List.nil_prefix, .nil left⟩
  | cons room rooms ih =>
    rw [List.forall_mem_cons] at hrooms
    obtain ⟨bs, ended, s', read, unread', left', hpull, hr, rfl, hs', rfl, hlength, hend, hmore⟩ :=
      pull_spec h hrooms.1
    obtain ⟨ds, s'', read', hpulls, hr', hprefix, hdealt⟩ := ih hs' hrooms.2
    refine ⟨.of bs ended :: ds, s'', read ++ read', ?_, hr.trans hr',
      (List.prefix_append_right_inj read).mpr hprefix, .pull hlength hend hmore hdealt⟩
    rw [Source.pulls] at hpulls ⊢
    rw [inTurn, hpull]
    dsimp only
    rw [hpulls]
    rfl

namespace FramedSink

variable {sink : FramedSink} {chunks : List Bytes} {final : Bytes}

/-- Pushes one after another write the frames of the chunks. -/
theorem pushes_spec (hw : sink.writer.Reliable) (ho : sink.finished = false)
    (hchunks : ∀ chunk ∈ chunks, chunk.length ≤ framePayloadLimit)
    (hfinal : final.length ≤ framePayloadLimit) :
    ∃ sent wire, Sink.pushes sink chunks final =
        (List.replicate (chunks.length + 1) (.ok ()), sent) ∧ sent.finished = true ∧
      sent.writer.written.toList = sink.writer.written.toList ++ wire ∧
      Frame.Sequel false wire (chunks.flatten ++ final) := by
  induction chunks generalizing sink with
  | nil =>
    obtain ⟨sent, hpush, -, hf, hwritten⟩ := push_of_reliable hw ho hfinal true
    have hseq := Frame.Sequel.frame (Frame.encode_iff.mpr ⟨hfinal, rfl⟩) .ended
    rw [List.append_nil, List.append_nil] at hseq
    refine ⟨sent, _, ?_, hf, hwritten, hseq⟩
    simp only [Sink.pushes, List.map_nil, List.nil_append, inTurn, hpush]
    rfl
  | cons chunk chunks ih =>
    rw [List.forall_mem_cons] at hchunks
    obtain ⟨s, hpush, hw', ho', hwritten⟩ := push_of_reliable hw ho hchunks.1 false
    obtain ⟨sent, wire, hpushes, hf, hrest, hseq⟩ := ih hw' ho' hchunks.2
    have hall := Frame.Sequel.frame (Frame.encode_iff.mpr ⟨hchunks.1, rfl⟩) hseq
    rw [← List.append_assoc, ← List.flatten_cons] at hall
    refine ⟨sent, _, ?_, hf, ?_, hall⟩
    · rw [Sink.pushes] at hpushes ⊢
      rw [List.map_cons, List.cons_append, inTurn]
      simp only [hpush, hpushes]
      rfl
    · rw [hrest, hwritten, List.append_assoc]

/-- **What is pushed at one end is delivered at the other.** A sink with a writer that never fails takes
chunks that fit a frame, the last of them marked. However what it writes is split into reads, whatever
follows on the connection and whatever the rooms of the pulls, the chunks are delivered in order and in
full; a pull delivers some of their bytes unless it tells the end, which is told with the last byte or
by the first pull behind it, and from then on; and nothing behind the last frame is read. The sink
takes no other chunk after the last one, and no sink takes one that does not fit a frame. -/
theorem pulls_of_pushes (hw : sink.writer.Reliable) (ho : sink.finished = false)
    (hchunks : ∀ chunk ∈ chunks, chunk.length ≤ framePayloadLimit)
    (hfinal : final.length ≤ framePayloadLimit) :
    (∃ sent wire, Sink.pushes sink chunks final =
        (List.replicate (chunks.length + 1) (.ok ()), sent) ∧
      sent.writer.written.toList = sink.writer.written.toList ++ wire ∧
      (∀ chunk last, Sink.push sent chunk last = (.error (.framing .pushAfterEnd), sent)) ∧
      ∀ (r : Reader) (rest : Flow Fault), r.flow = rest.after wire →
        ∀ rooms : List Nat, (∀ room ∈ rooms, 0 < room) →
          let payload := chunks.flatten ++ final
          ∃ ds source read, Source.pulls ({ reader := r } : FramedSource) rooms =
              (ds.map .ok, source) ∧
            r.Reads read source.reader ∧ read <+: wire ∧
            ds.flatMap (·.bytes) <+: payload ∧
            (payload.length < rooms.length → ds.flatMap (·.bytes) = payload) ∧
            List.Forall₂ (fun d room => d.count = d.bytes.length ∧ d.count ≤ room ∧
              (0 < d.count ∨ d.ended = true)) ds rooms ∧
            ∀ before d after, ds = before ++ d :: after →
              let delivered := before.flatMap (·.bytes)
              (d.ended = true → delivered ++ d.bytes = payload) ∧
              (delivered = payload → d.ended = true) ∧
              ∀ e ∈ before, e.ended = true → d.bytes = [] ∧ d.ended = true) ∧
    ∀ (s : FramedSink) chunk last, framePayloadLimit < chunk.length →
      ∃ cause, Sink.push s chunk last = (.error (.framing cause), s) := by
  refine ⟨?_, fun s chunk last hlong => s.push_of_long hlong last⟩
  obtain ⟨sent, wire, hpushes, hf, hwritten, hseq⟩ := pushes_spec hw ho hchunks hfinal
  refine ⟨sent, wire, hpushes, hwritten, push_of_finished hf, ?_⟩
  intro r rest hr rooms hrooms payload
  have howes : FramedSource.Owes rest { reader := r } wire payload := ⟨hr, payload, hseq, rfl⟩
  obtain ⟨ds, source, read, hpulls, hread, hprefix, hdealt⟩ := FramedSource.pulls_spec howes hrooms
  exact ⟨ds, source, read, hpulls, hread, hprefix, hdealt.flatMap_prefix, hdealt.flatMap_eq,
    hdealt.forall₂, fun _ _ _ hds => hdealt.ended_iff hds⟩

/-- Three frames, read byte by byte with an interruption before each of them. -/
theorem pulls_of_pushes_interrupted :
    ∃ (sent : FramedSink) (ds : List Delivery) (source : FramedSource),
      Sink.pushes ({ writer := {} } : FramedSink) [[1, 2, 3], []] [4] =
        ([.ok (), .ok (), .ok ()], sent) ∧
      Source.pulls ({ reader := ⟨sent.writer.written.toList.flatMap fun b =>
        [.fault { kind := .interrupted }, .data [b]]⟩ } : FramedSource) [2, 1, 5, 2, 3] =
          (ds.map .ok, source) ∧ ds.flatMap (·.bytes) = [1, 2, 3, 4] := by
  have hchunks : ∀ chunk ∈ ([[1, 2, 3], []] : List Bytes), chunk.length ≤ framePayloadLimit := by
    decide
  have hfinal : ([4] : Bytes).length ≤ framePayloadLimit := by decide
  let sink : FramedSink := { writer := {} }
  have hw : sink.writer.Reliable := ⟨rfl, rfl⟩
  obtain ⟨⟨sent, wire, hpushes, hwritten, -, hpull⟩, -⟩ := pulls_of_pushes hw rfl hchunks hfinal
  have hwire : sent.writer.written.toList = wire := hwritten
  let pieces : List Piece := wire.flatMap fun b => [.fault { kind := .interrupted }, .data [b]]
  have hpasses : ∀ p ∈ pieces, p.Passes := by
    intro p hp
    obtain ⟨b, -, hp⟩ := List.mem_flatMap.mp hp
    rcases List.mem_pair.mp hp with rfl | rfl
    · exact rfl
    · exact List.cons_ne_nil b []
  have hcontent : (⟨pieces⟩ : Reader).content = wire := by
    simp [Reader.content, pieces, List.flatMap_assoc, Piece.content]
  have hflow : (⟨pieces⟩ : Reader).flow = Flow.after ⟨[], .ok ()⟩ wire := by
    have h := Reader.flowFrom_append hpasses []
    rwa [List.append_nil, hcontent] at h
  obtain ⟨ds, source, -, hpulls, -, -, -, hall, -⟩ :=
    hpull ⟨pieces⟩ ⟨[], .ok ()⟩ hflow [2, 1, 5, 2, 3] (by decide)
  refine ⟨sent, ds, source, hpushes, ?_, hall (by decide)⟩
  rw [hwire]
  exact hpulls

end FramedSink

end BlockSync
