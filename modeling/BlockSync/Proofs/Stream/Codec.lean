import BlockSync.Proofs.Stream.RoundTrip

/-!
# Frames one by one

A frame is taken from the front of a byte string that is at hand, or read from a reader. Both find the
same frame, and both see where it ends.

* `Frame.receive`: a frame from a reader; `Frame.decodeAll`: all frames of a byte string;
* `Frame.decode_encode`, `Frame.encode_of_decode`: what is encoded is decoded, whatever follows it, and
  the other way round;
* **`Frame.receive_of_flow`**: a reader delivers the frame that is decoded from its bytes, or none if
  none is;
* **`Frame.self_delimiting`**: frames that are written one after another are found again, the two ways
  to look for one agree, and no frame carries too much.
-/

namespace BlockSync

namespace Frame

/-! ## A frame from a reader, and all frames -/

/-- Read a header, and then the payload that it announces. -/
def receive (r : Reader) : Except TransferError (Header × Bytes) × Reader :=
  match readHeader r with
  | (.error e, r) => (.error e, r)
  | (.ok header, r) =>
    match readBody r header.length.toNat with
    | (.error e, _, r) => (.error e, r)
    | (.ok (), payload, r) => (.ok (header, payload), r)

/-- The frames of a byte string, taken from its front until nothing is left. -/
def decodeAll (bs : Bytes) : Except TransferError (List (Header × Bytes)) :=
  if bs = [] then .ok []
  else
    match decode bs with
    | .error e => .error e
    | .ok (header, payload) =>
      (decodeAll (bs.drop (headerLength + payload.length))).map ((header, payload) :: ·)
termination_by bs.length
decreasing_by
  next h =>
    have := List.length_pos_of_ne_nil h
    simp only [List.length_drop, headerLength]
    omega

/-- Write frames one after another. -/
def writeEach (w : Writer) (frames : List (Bytes × Bool)) : List (Except TransferError Unit) × Writer :=
  inTurn (fun w (payload, last) => write w payload last) w frames

/-- A payload and its mark, as they are decoded. -/
def decoded (frame : Bytes × Bool) : Header × Bytes :=
  (⟨UInt16.ofNat frame.1.length, frame.2⟩, frame.1)

/-! ## Headers -/

/-- Fifteen bits count the payload. -/
theorem Header.toNat_length_decode (upper lower : UInt8) :
    (Header.decode upper lower).length.toNat = BigEndian.decode [upper, lower] / 2 ∧
      (Header.decode upper lower).length.toNat ≤ framePayloadLimit := by
  have hlt : BigEndian.decode [upper, lower] < 256 ^ 2 := BigEndian.decode_lt [upper, lower]
  have hlen : (Header.decode upper lower).length.toNat = BigEndian.decode [upper, lower] / 2 := by
    rw [Header.decode, UInt16.toNat_ofNat']
    exact Nat.mod_eq_of_lt (by omega)
  rw [hlen, framePayloadLimit]
  exact ⟨rfl, by omega⟩

/-- Every pair of bytes is the encoding of the header in it. -/
theorem Header.encode_decode (upper lower : UInt8) :
    (Header.decode upper lower).encode = [upper, lower] := by
  have hlast : (Header.decode upper lower).last.toNat = BigEndian.decode [upper, lower] % 2 := by
    change (BigEndian.decode [upper, lower] % 2 == 1).toNat = _
    rcases Nat.mod_two_eq_zero_or_one (BigEndian.decode [upper, lower]) with h | h <;> rw [h] <;> rfl
  rw [Header.encode, (Header.toNat_length_decode upper lower).1, hlast, Nat.div_add_mod]
  exact BigEndian.encode_decode [upper, lower]

theorem Header.length_encode (header : Header) : header.encode.length = headerLength :=
  BigEndian.length_encode ..

/-! ## At hand -/

variable {payload frame bs : Bytes} {last : Bool} {header : Header}

theorem decode_of_short (h : bs.length < headerLength) :
    decode bs = .error (.framing (.truncatedHeader bs.length)) := by
  match bs, h with
  | [], _ => rfl
  | [b], _ => rfl
  | _ :: _ :: _, h => simp only [headerLength, List.length_cons] at h; omega

/-- **What is encoded is decoded**, whatever follows it. -/
theorem decode_encode (h : encode payload last = .ok frame) (rest : Bytes) :
    decode (frame ++ rest) = .ok (decoded (payload, last)) := by
  obtain ⟨hle, rfl⟩ := encode_iff.mp h
  have hlen := toNat_length hle
  have hfits : (⟨UInt16.ofNat payload.length, last⟩ : Header).length.toNat ≤ framePayloadLimit := by
    rw [hlen]
    exact hle
  obtain ⟨upper, lower, he, hd⟩ := Header.decode_encode hfits
  rw [he, List.append_assoc]
  simp only [List.cons_append, List.nil_append, decode, hd, hlen]
  rw [if_pos (by rw [List.length_append]; exact Nat.le_add_right _ _), List.take_left]
  rfl

/-- **What is decoded is encoded**: the frame is the front of the byte string that it was found in. -/
theorem encode_of_decode (h : decode bs = .ok (header, payload)) :
    header.length.toNat = payload.length ∧ encode payload header.last =
      .ok (bs.take (headerLength + payload.length)) := by
  match bs, h with
  | [], h => cases h
  | [b], h => cases h
  | upper :: lower :: rest, h =>
    simp only [decode] at h
    split at h
    · next hle =>
      obtain ⟨rfl, rfl⟩ := Prod.mk.inj (Except.ok.inj h)
      have hlen := List.length_take_of_le hle
      have hlimit := (Header.toNat_length_decode upper lower).2
      refine ⟨hlen.symm, encode_iff.mpr ⟨by rwa [hlen], ?_⟩⟩
      have hheader : (⟨UInt16.ofNat (Header.decode upper lower).length.toNat,
          (Header.decode upper lower).last⟩ : Header) = Header.decode upper lower := by
        rw [UInt16.ofNat_toNat]
      rw [hlen, hheader, Header.encode_decode, headerLength, Nat.add_comm]
      rfl
    · cases h

theorem decodeAll_encode (h : encode payload last = .ok frame) (rest : Bytes) :
    decodeAll (frame ++ rest) = (decodeAll rest).map (decoded (payload, last) :: ·) := by
  obtain ⟨-, hframe⟩ := encode_iff.mp h
  have hlen : frame.length = headerLength + payload.length := by
    rw [hframe, List.length_append, Header.length_encode]
  have hne : frame ++ rest ≠ [] := List.ne_nil_of_length_pos (by
    rw [List.length_append, hlen, headerLength]
    omega)
  rw [decodeAll, if_neg hne, decode_encode h]
  simp only [decoded, ← hlen, List.drop_left]

/-! ## From a reader -/

/-- A frame that is cut short is refused, wherever it is looked for. -/
inductive CutShort : TransferError → TransferError → Prop
  | header {n : Nat} : CutShort (.framing (.truncatedHeader n)) (.framing .closedInHeader)
  | payload {m n : Nat} : CutShort (.framing (.truncatedPayload m n)) (.framing .closedInPayload)

/-- A request for more than is to come takes what there is. -/
theorem gather_of_lt {r : Reader} {n : Nat} (h : r.flow = ⟨bs, .ok ()⟩) (hlt : bs.length < n) :
    ∃ r', r.gather n = (bs, .ended, r') := by
  have hg := r.gather_spec n
  rw [h] at hg
  rcases hr : r.gather n with ⟨bs', _ | _ | e, r'⟩ <;> rw [hr] at hg
  · obtain ⟨hl, hf⟩ := hg
    have hbytes := congrArg (List.length ∘ Flow.bytes) hf
    simp only [Function.comp, Flow.after, List.length_append] at hbytes
    omega
  · obtain rfl : bs = bs' := congrArg Flow.bytes hg.2
    exact ⟨r', rfl⟩
  · cases congrArg Flow.ending hg.2

/-- **A reader delivers the frame that is decoded from its bytes**, and goes no further; if there is none
it is refused as well. -/
theorem receive_of_flow {r : Reader} (h : r.flow = ⟨bs, .ok ()⟩) :
    (∃ header payload r', decode bs = .ok (header, payload) ∧
      receive r = (.ok (header, payload), r') ∧
      r'.flow = ⟨bs.drop (headerLength + payload.length), .ok ()⟩) ∨
    ∃ e e' r', decode bs = .error e ∧ receive r = (.error e', r') ∧ CutShort e e' := by
  by_cases hshort : bs.length < headerLength
  · -- no header
    obtain ⟨r', hr⟩ := gather_of_lt h hshort
    have hread := readHeader_of_short hr hshort
    have hnone : receive r = (.error (.framing .closedInHeader), r') := by
      rw [receive, hread]
      rfl
    exact .inr ⟨_, _, r', decode_of_short hshort, hnone, .header⟩
  · match bs, hshort with
    | [], hshort => exact absurd Nat.zero_lt_two hshort
    | [b], hshort => exact absurd Nat.one_lt_two hshort
    | upper :: lower :: rest, _ =>
      obtain ⟨r₁, hr₁, hflow₁⟩ := Reader.reads_of_flow (f := ⟨rest, .ok ()⟩)
        (show r.flow = Flow.after ⟨rest, .ok ()⟩ [upper, lower] from h)
      have hread : readHeader r = (.ok (.decode upper lower), r₁) := by
        rw [readHeader, show r.gather headerLength = ([upper, lower], .full, r₁) from hr₁]
      rcases Nat.lt_or_ge rest.length (Header.decode upper lower).length.toNat with hlt | hle
      · -- no payload
        obtain ⟨r₂, hr₂⟩ := gather_of_lt hflow₁ hlt
        refine .inr ⟨_, _, r₂, if_neg (Nat.not_le.mpr hlt), ?_, .payload⟩
        simp only [receive, hread, readBody, hr₂]
        rfl
      · have hlen := List.length_take_of_le hle
        have hsplit : r₁.flow = Flow.after
            ⟨rest.drop (Header.decode upper lower).length.toNat, .ok ()⟩
            (rest.take (Header.decode upper lower).length.toNat) := by
          rw [hflow₁, Flow.after, List.take_append_drop]
        obtain ⟨r₂, hr₂, hflow₂⟩ := Reader.reads_of_flow hsplit
        have hbody := readBody_of_reads hr₂
        rw [hlen] at hbody
        refine .inl ⟨_, _, r₂, if_pos hle, ?_, ?_⟩
        · simp only [receive, hread, hbody]
        · rw [hflow₂, hlen, headerLength, Nat.add_comm]
          rfl

/-! ## One after another -/

/-- Frames that are written one after another. -/
theorem writeEach_of_reliable {w : Writer} (hw : w.Reliable) {frames : List (Bytes × Bool)}
    (h : ∀ f ∈ frames, f.1.length ≤ framePayloadLimit) :
    ∃ w' wires, writeEach w frames = (List.replicate frames.length (.ok ()), w') ∧
      frames.mapM (fun f => encode f.1 f.2) = .ok wires ∧
      w'.written.toList = w.written.toList ++ wires.flatten ∧
      decodeAll wires.flatten = .ok (frames.map decoded) := by
  induction frames generalizing w with
  | nil =>
    refine ⟨w, [], rfl, rfl, (List.append_nil _).symm, ?_⟩
    rw [List.flatten_nil, decodeAll, if_pos rfl]
    rfl
  | cons f frames ih =>
    obtain ⟨hf, hframes⟩ := List.forall_mem_cons.mp h
    obtain ⟨w₁, hwrite, hr₁, hc₁⟩ := write_of_reliable hw hf f.2
    obtain ⟨w', wires, hrest, hencode, hc', hdecode⟩ := ih hr₁ hframes
    obtain ⟨frame, hframe, hframed⟩ : ∃ frame, encode f.1 f.2 = .ok frame ∧
        w₁.written.toList = w.written.toList ++ frame := ⟨_, encode_iff.mpr ⟨hf, rfl⟩, hc₁⟩
    refine ⟨w', frame :: wires, ?_, ?_, ?_, ?_⟩
    · rw [writeEach] at hrest ⊢
      simp only [inTurn, hwrite, hrest]
      rfl
    · rw [List.mapM_cons, hframe, hencode]
      rfl
    · rw [hc', hframed, List.flatten_cons, List.append_assoc]
    · rw [List.flatten_cons, decodeAll_encode hframe, hdecode]
      rfl

/-- **Frames delimit themselves.** Frames that are written one after another are on the wire as they are
encoded, one behind the other, and decoding from the front gives back their payloads and marks until
nothing is left. In any byte string the same frame is found at the front, whether all of it is at hand or
it is read, in reads of any sizes: the frame is what its payload and mark are encoded to, and it is all
that is read; or there is none, and both ways break the protocol. A payload that is too large for a frame
is refused, and nothing is written of it. -/
theorem self_delimiting :
    (∀ (w : Writer) (frames : List (Bytes × Bool)), w.Reliable →
      (∀ f ∈ frames, f.1.length ≤ framePayloadLimit) →
      ∃ w' wires, writeEach w frames = (List.replicate frames.length (.ok ()), w') ∧
        frames.mapM (fun f => encode f.1 f.2) = .ok wires ∧
        w'.written.toList = w.written.toList ++ wires.flatten ∧
        decodeAll wires.flatten = .ok (frames.map decoded)) ∧
    (∀ (bs : Bytes) (r : Reader), r.flow = ⟨bs, .ok ()⟩ →
      (∃ header payload r', decode bs = .ok (header, payload) ∧
        receive r = (.ok (header, payload), r') ∧ header.length.toNat = payload.length ∧
        encode payload header.last = .ok (bs.take (headerLength + payload.length)) ∧
        r'.flow = ⟨bs.drop (headerLength + payload.length), .ok ()⟩) ∨
      ∃ e e' r', decode bs = .error e ∧ receive r = (.error e', r') ∧ CutShort e e') ∧
    ∀ (payload : Bytes) (last : Bool), framePayloadLimit < payload.length →
      encode payload last = .error (.framing (.payloadTooLarge payload.length)) ∧
      ∀ w : Writer, write w payload last =
        (.error (.framing (.payloadTooLarge payload.length)), w) := by
  refine ⟨fun _ _ hw h => writeEach_of_reliable hw h, ?_, ?_⟩
  · intro bs r h
    rcases receive_of_flow h with ⟨header, payload, r', hdecode, hreceive, hflow⟩ | hnone
    · obtain ⟨hlen, hencode⟩ := encode_of_decode hdecode
      exact .inl ⟨header, payload, r', hdecode, hreceive, hlen, hencode, hflow⟩
    · exact .inr hnone
  · intro payload last h
    have hheader : Header.ofLength payload.length last =
        .error (.framing (.payloadTooLarge payload.length)) := if_neg (Nat.not_le.mpr h)
    constructor
    · rw [encode, hheader]
      rfl
    · intro w
      rw [write, hheader]

/-- Two frames, of which the second carries nothing; a frame that is read byte by byte, with interrupted
reads between; and a payload of one byte too many. -/
theorem self_delimiting_two :
    (∃ w', writeEach {} [([7, 8], false), ([], true)] = ([.ok (), .ok ()], w') ∧
      w'.written.toList = [0, 4, 7, 8, 0, 1] ∧
      decodeAll [0, 4, 7, 8, 0, 1] = .ok [(⟨2, false⟩, [7, 8]), (⟨0, true⟩, [])]) ∧
    (∃ r', receive ⟨[.data [0], .fault ⟨.interrupted, ""⟩, .data [4], .data [7, 8, 9]]⟩ =
        (.ok (⟨2, false⟩, [7, 8]), r') ∧ r'.flow = ⟨[9], .ok ()⟩) ∧
    encode (List.replicate 32768 0) true = .error (.framing (.payloadTooLarge 32768)) := by
  obtain ⟨hwritten, hfound, hlarge⟩ := self_delimiting
  refine ⟨?_, ?_, ?_⟩
  · obtain ⟨w', wires, hwrites, hencode, hw, hdecode⟩ :=
      hwritten {} [([7, 8], false), ([], true)] ⟨rfl, rfl⟩ (by decide)
    obtain rfl : wires = [[0, 4, 7, 8], [0, 1]] := (Except.ok.inj hencode).symm
    exact ⟨w', hwrites, hw, hdecode⟩
  · have hdelivers : Reader.flow ⟨[.data [0], .fault ⟨.interrupted, ""⟩, .data [4], .data [7, 8, 9]]⟩ =
        ⟨[0, 4, 7, 8, 9], .ok ()⟩ := rfl
    rcases hfound _ _ hdelivers with
      ⟨header, payload, r', hdecode, hreceive, -, -, hflow⟩ | ⟨e, -, -, hdecode, -⟩
    · obtain ⟨rfl, rfl⟩ := Prod.mk.inj (Except.ok.inj hdecode)
      exact ⟨r', hreceive, hflow⟩
    · cases hdecode
  · have hlen : (List.replicate 32768 (0 : UInt8)).length = 32768 := List.length_replicate
    obtain ⟨hencode, -⟩ := hlarge (List.replicate 32768 0) true (by rw [hlen]; decide)
    rwa [hlen] at hencode

end Frame

end BlockSync
