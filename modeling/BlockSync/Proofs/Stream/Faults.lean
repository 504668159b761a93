import BlockSync.Proofs.Stream.RoundTrip

/-!
# Pulls after failures

A source may be pulled again after a pull that has failed. Whether what it then delivers is still true
to the wire depends on where the failure struck.

* `Flow.Honest`: what a sequence of pulls delivers is true to a flow;
* `FramedSource.owed`: what a source has still to deliver of everything its reader holds;
* `Frame.Tears`: reading breaks off inside a frame, and takes what it has read along;
* **`FramedSource.pull_settles`**: a pull that is not broken off inside a frame, failed or not, leaves
  owed what it has not delivered;
* **`FramedSource.pull_of_tears`**: what a pull leaves owed that is broken off inside a frame;
* **`FramedSource.honest_unless_torn`**: what is delivered is true to the wire until then.
-/

namespace BlockSync

/-! ## What pulls deliver -/

/-- The bytes that the successful pulls have delivered. -/
def received (results : List (Except TransferError Delivery)) : Bytes :=
  results.flatMap fun
    | .ok pulled => pulled.bytes
    | .error _ => []

/-- The results of pulls, some of which may have failed, are true to a flow: the bytes received are the
front of it, and the end is told only with the last of them or behind it. -/
structure Flow.Honest (f : Flow TransferError) (results : List (Except TransferError Delivery)) :
    Prop where
  front : received results <+: f.bytes
  ended : ∀ {before later : List (Except TransferError Delivery)} {pulled : Delivery},
    results = before ++ .ok pulled :: later → pulled.ended = true →
      received (before ++ [.ok pulled]) = f.bytes ∧ f.ending = .ok ()

theorem received_cons (result : Except TransferError Delivery)
    (results : List (Except TransferError Delivery)) :
    received (result :: results) = received [result] ++ received results := by
  simp [received]

namespace Flow.Honest

variable {f : Flow TransferError} {results : List (Except TransferError Delivery)}

theorem nil (f : Flow TransferError) : f.Honest [] :=
  ⟨List.nil_prefix, fun h => absurd h.symm (List.append_ne_nil_of_right_ne_nil _ (by simp))⟩

/-- A pull fails and leaves the flow as it is. -/
theorem error (h : f.Honest results) (e : TransferError) : f.Honest (.error e :: results) where
  front := h.front
  ended {before later pulled} heq hend := by
    cases before with
    | nil => cases (List.cons.inj heq).1
    | cons result before =>
      obtain ⟨rfl, hresults⟩ := List.cons.inj heq
      have hended := h.ended hresults hend
      exact hended

/-- A pull delivers the front of the flow. -/
theorem ok {pulled : Delivery} (h : f.Honest results)
    (hend : pulled.ended = true → f = ⟨[], .ok ()⟩) :
    (f.after pulled.bytes).Honest (.ok pulled :: results) where
  front := by
    rw [received_cons]
    simp only [received, List.flatMap_singleton]
    exact (List.prefix_append_right_inj _).mpr h.front
  ended {before later last} heq hlast := by
    cases before with
    | nil =>
      obtain rfl := Except.ok.inj (List.cons.inj heq).1
      rw [hend hlast]
      exact ⟨by simp [received, Flow.after], rfl⟩
    | cons result before =>
      obtain ⟨rfl, hresults⟩ := List.cons.inj heq
      obtain ⟨hbytes, hending⟩ := h.ended hresults hlast
      rw [List.cons_append, received_cons, hbytes]
      exact ⟨by simp [received, Flow.after], hending⟩

end Flow.Honest

/-! ## Everything a reader holds -/

/-- Everything a reader holds, as if no read ever stopped. -/
def Reader.wire (r : Reader) : Flow Fault := ⟨r.content, .ok ()⟩

theorem Reader.wire_gather {r r' : Reader} {count : Nat} {bs : Bytes} {stop : Stop}
    (h : r.gather count = (bs, stop, r')) : r.wire = r'.wire.after bs := by
  rw [wire, wire, Flow.after, content_gather h]

namespace Frame

variable {r r' : Reader} {header : Header}

/-- A header that is read is that of the frame in front. -/
theorem flow_of_readHeader (h : readHeader r = (.ok header, r')) :
    flow r.wire = bodyFlow header r'.wire := by
  unfold readHeader at h
  split at h
  · next upper lower r'' hg =>
    obtain ⟨hheader, rfl⟩ := Prod.mk.inj h
    obtain rfl := Except.ok.inj hheader
    rw [Reader.wire_gather hg, flow_header]
  · cases (Prod.mk.inj h).1

/-- A header that is not read has been broken off. -/
theorem short_of_readHeader {e : TransferError} (h : readHeader r = (.error e, r')) :
    ∃ part stop, r.gather headerLength = (part, stop, r') ∧ part.length < headerLength := by
  have hg := r.gather_spec headerLength
  rcases hr : r.gather headerLength with ⟨part, _ | _ | f, r''⟩ <;> rw [hr] at hg
  · obtain ⟨upper, lower, rfl⟩ := List.length_eq_two.mp hg.1
    simp only [readHeader, hr] at h
    cases (Prod.mk.inj h).1
  · rw [readHeader_of_short hr hg.1] at h
    obtain rfl := (Prod.mk.inj h).2
    exact ⟨part, _, rfl, hg.1⟩
  · rw [readHeader_of_short hr hg.1] at h
    obtain rfl := (Prod.mk.inj h).2
    exact ⟨part, _, rfl, hg.1⟩

/-- A payload is read from the front of what the reader holds, in full or in part. -/
theorem wire_readBody {length : Nat} {result : Except TransferError Unit} {bs : Bytes}
    (h : readBody r length = (result, bs, r')) :
    r.wire = r'.wire.after bs ∧ bs.length ≤ length ∧ (result = .ok () → bs.length = length) := by
  have hg := r.gather_spec length
  unfold readBody at h
  rcases hr : r.gather length with ⟨part, _ | _ | f, r''⟩ <;> rw [hr] at h hg <;>
    obtain ⟨rfl, rfl, rfl⟩ : _ ∧ _ ∧ _ := by simpa only [Prod.mk.injEq] using h
  · exact ⟨Reader.wire_gather hr, Nat.le_of_eq hg.1, fun _ => hg.1⟩
  · exact ⟨Reader.wire_gather hr, Nat.le_of_lt hg.1, nofun⟩
  · exact ⟨Reader.wire_gather hr, Nat.le_of_lt hg.1, nofun⟩

/-- Reading nothing never fails. -/
theorem readBody_zero (r : Reader) : readBody r 0 = (.ok (), [], r) := by
  rw [readBody, show r.gather 0 = ([], .full, r) from Reader.Reads.refl r]

/-! ## Frames that are torn -/

/-- What is read of a frame before reading breaks off inside it. -/
inductive Tear where
  /-- One byte of the header. -/
  | header (b : UInt8)
  /-- The header and a part of the payload. -/
  | payload (header : Header) (part : Bytes)

/-- Reading breaks off inside the next frame that carries something or is the last. What has been read
of it is gone from the reader. -/
inductive Tears : Reader → Tear → Reader → Prop
  | header {r r' : Reader} {b : UInt8} {stop : Stop} :
    r.gather headerLength = ([b], stop, r') → Tears r (.header b) r'
  | payload {r r₁ r' : Reader} {header : Header} {e : TransferError} {part : Bytes} :
    readHeader r = (.ok header, r₁) → readBody r₁ header.length.toNat = (.error e, part, r') →
      Tears r (.payload header part) r'
  | later {r r₁ r' : Reader} {header : Header} {tear : Tear} :
    readHeader r = (.ok header, r₁) → (header.isEmpty && !header.last) = true → Tears r₁ tear r' →
      Tears r tear r'

/-- The flow of a wire in front of which there is what was torn off. -/
def Tear.flow (wire : Flow Fault) : Tear → Flow TransferError
  | .header b => Frame.flow (wire.after [b])
  | .payload header part => bodyFlow header (wire.after part)

/-- What was torn off was in front of what the reader still holds. -/
theorem flow_of_tears {tear : Tear} (h : Tears r tear r') : flow r.wire = tear.flow r'.wire := by
  induction h with
  | header hg => rw [Reader.wire_gather hg]; rfl
  | payload hh hb => rw [flow_of_readHeader hh, (wire_readBody hb).1]; rfl
  | later hh hskip _ ih => rw [flow_of_readHeader hh, (bodyFlow_of_skipped hskip _).2.2, ih]

end Frame

namespace FramedSource

variable {s s' : FramedSource} {header : Frame.Header} {room : Nat}

/-! ## What is owed -/

/-- What the source has still to deliver of everything its reader holds. -/
def owed (s : FramedSource) : Flow TransferError :=
  (if s.peerDone then ⟨[], .ok ()⟩ else Frame.flow s.reader.wire).after s.rest

/-- Nothing is staged, and the last frame has not been met. -/
structure Idle (s : FramedSource) : Prop where
  rest : s.rest = []
  peerDone : s.peerDone = false

/-- The next pull is broken off inside a frame. -/
def Torn (s : FramedSource) : Prop := s.Idle ∧ ∃ tear r, Frame.Tears s.reader tear r

/-- What was owed is owed still, but for what has been delivered. -/
def Settles (f : Flow TransferError) : Except TransferError Delivery × FramedSource → Prop
  | (.ok pulled, s) => f = s.owed.after pulled.bytes ∧ (pulled.ended = true → s.owed = ⟨[], .ok ()⟩)
  | (.error _, s) => f = s.owed

theorem Idle.owed (h : s.Idle) : s.owed = Frame.flow s.reader.wire := by
  rw [FramedSource.owed, h.rest, h.peerDone, if_neg (by decide), Flow.after_nil]

theorem Idle.pull_eq (h : s.Idle) (room : Nat) : s.pull room = s.takeNext room := by
  have hu : ¬ 0 < s.undelivered := by
    rw [← length_rest, h.rest]
    exact Nat.lt_irrefl 0
  rw [FramedSource.pull_eq, if_neg hu, if_neg (by simp [h.peerDone])]

theorem settles_deliver (s : FramedSource) (room : Nat) :
    Settles s.owed (.ok (s.deliver room).1, (s.deliver room).2) := by
  obtain ⟨s', hd, hrest, hp, hreader⟩ := s.deliver_eq room
  rw [hd]
  refine ⟨?_, fun hend => ?_⟩
  · rw [FramedSource.owed, FramedSource.owed, Flow.after_after, hrest, hp, hreader]
    exact congrArg _ (List.take_append_drop ..).symm
  · obtain ⟨hdone, hall⟩ : s.peerDone = true ∧ s.rest.length ≤ room := by
      simpa [Delivery.of] using hend
    rw [FramedSource.owed, hrest, List.drop_of_length_le hall, hp, if_pos hdone, Flow.after_nil]

/-! ## Up to the next header -/

/-- The next header that counts is that of the frame in front, but for frames that carry nothing. -/
theorem nextHeader_of_owed (h : s.nextHeader = (.ok header, s')) :
    Frame.flow s.reader.wire = Frame.bodyFlow header s'.reader.wire ∧ s'.rest = s.rest ∧
      s'.peerDone = header.last := by
  induction s using nextHeader.induct with
  | case1 s e r hr =>
    rw [nextHeader_of_error hr] at h
    cases (Prod.mk.inj h).1
  | case2 s header₁ r hr hlt s₁ hskip ih =>
    rw [nextHeader_of_ok hr, if_pos hskip] at h
    obtain ⟨hflow, hrest, hp⟩ := ih h
    refine ⟨?_, hrest, hp⟩
    rw [Frame.flow_of_readHeader hr, (Frame.bodyFlow_of_skipped hskip _).2.2]
    exact hflow
  | case3 s header₁ r hr hlt hskip =>
    rw [nextHeader_of_ok hr, if_neg hskip] at h
    obtain ⟨hheader, rfl⟩ := Prod.mk.inj h
    obtain rfl := Except.ok.inj hheader
    exact ⟨Frame.flow_of_readHeader hr, rfl, rfl⟩

/-- There is no next header: reading has stopped between two frames, or inside a header. -/
theorem nextHeader_of_stopped {e : TransferError} (hs : s.Idle) (h : s.nextHeader = (.error e, s')) :
    s'.Idle ∧ (Frame.flow s.reader.wire = Frame.flow s'.reader.wire ∨
      ∃ b, Frame.Tears s.reader (.header b) s'.reader) := by
  induction s using nextHeader.induct with
  | case1 s e' r hr =>
    rw [nextHeader_of_error hr] at h
    obtain ⟨-, rfl⟩ := Prod.mk.inj h
    obtain ⟨part, stop, hg, hl⟩ := Frame.short_of_readHeader hr
    refine ⟨⟨hs.rest, hs.peerDone⟩, ?_⟩
    rcases part with _ | ⟨b, _ | ⟨c, part⟩⟩
    · refine .inl ?_
      rw [Reader.wire_gather hg, Flow.after_nil]
    · exact .inr ⟨b, .header hg⟩
    · simp only [Frame.headerLength, List.length_cons] at hl
      omega
  | case2 s header₁ r hr hlt s₁ hskip ih =>
    rw [nextHeader_of_ok hr, if_pos hskip] at h
    obtain ⟨-, hl, hb⟩ := Frame.bodyFlow_of_skipped hskip r.wire
    obtain ⟨hidle, hor⟩ := ih ⟨hs.rest, hl⟩ h
    refine ⟨hidle, hor.imp (fun hflow => ?_) (Exists.imp fun b ht => .later hr hskip ht)⟩
    rw [Frame.flow_of_readHeader hr, hb]
    exact hflow
  | case3 s header₁ r hr hlt hskip =>
    rw [nextHeader_of_ok hr, if_neg hskip] at h
    cases (Prod.mk.inj h).1

/-- The payload behind the next header is broken off. -/
theorem tears_of_nextHeader {e : TransferError} {part : Bytes} {r' : Reader}
    (h : s.nextHeader = (.ok header, s'))
    (hb : Frame.readBody s'.reader header.length.toNat = (.error e, part, r')) :
    Frame.Tears s.reader (.payload header part) r' := by
  induction s using nextHeader.induct with
  | case1 s e r hr =>
    rw [nextHeader_of_error hr] at h
    cases (Prod.mk.inj h).1
  | case2 s header₁ r hr hlt s₁ hskip ih =>
    rw [nextHeader_of_ok hr, if_pos hskip] at h
    exact .later hr hskip (ih h)
  | case3 s header₁ r hr hlt hskip =>
    rw [nextHeader_of_ok hr, if_neg hskip] at h
    obtain ⟨hheader, rfl⟩ := Prod.mk.inj h
    obtain rfl := Except.ok.inj hheader
    exact .payload hr hb

/-! ## Pulls that are not broken off inside a frame -/

theorem settles_takeBody (hs : s.rest = []) (hp : s.peerDone = header.last)
    (hbody : ∀ e part r, Frame.readBody s.reader header.length.toNat ≠ (.error e, part, r)) :
    Settles (Frame.bodyFlow header s.reader.wire) (s.takeBody header room) := by
  unfold takeBody
  dsimp only
  rcases hb : Frame.readBody s.reader header.length.toNat with ⟨e | ⟨⟩, bs, r⟩
  · exact absurd hb (hbody e bs r)
  · obtain ⟨hwire, -, hlen⟩ := Frame.wire_readBody hb
    have hflow := Frame.bodyFlow_after r.wire (hlen rfl)
    rw [hwire, hflow]
    by_cases hl : header.length.toNat ≤ room
    · rw [if_pos hl]
      have howed : FramedSource.owed { s with reader := r } =
          if header.last then ⟨[], .ok ()⟩ else Frame.flow r.wire := by
        simp only [rest] at hs
        simp only [FramedSource.owed, rest, hs, hp, Flow.after_nil]
      refine ⟨?_, fun hend => ?_⟩
      · rw [howed]
        cases header.last with
        | true => simp [Delivery.of, Flow.after]
        | false => rfl
      · have hlast : header.last = true := hend
        rw [howed, if_pos hlast]
    · -- it is staged
      rw [if_neg hl, stage_of_ok hb (hlen rfl)]
      let s' : FramedSource := { s with reader := r, staged := bs.toArray, delivered := 0 }
      have howed : s'.owed = if header.last then ⟨bs, .ok ()⟩ else (Frame.flow r.wire).after bs := by
        simp only [s', FramedSource.owed, rest, hp, List.drop_zero]
        split <;> simp [Flow.after]
      rw [← howed]
      exact s'.settles_deliver room

/-- **A pull that is not broken off inside a frame leaves owed what it has not delivered**, whether it
fails or not. -/
theorem pull_settles (h : ¬ s.Torn) (room : Nat) : Settles s.owed (Source.pull s room) := by
  change Settles s.owed (s.pull room)
  rw [FramedSource.pull_eq]
  by_cases hu : 0 < s.undelivered
  · rw [if_pos hu]
    exact s.settles_deliver room
  · have hrest : s.rest = [] := List.eq_nil_of_length_eq_zero (by rw [length_rest]; omega)
    rw [if_neg hu]
    cases hp : s.peerDone with
    | true =>
      rw [if_pos rfl]
      have howed : s.owed = ⟨[], .ok ()⟩ := by
        rw [FramedSource.owed, hrest, if_pos hp, Flow.after_nil]
      rw [howed]
      exact ⟨by rw [howed]; rfl, fun _ => howed⟩
    | false =>
      have hs : s.Idle := ⟨hrest, hp⟩
      rw [if_neg (by decide), hs.owed, takeNext]
      rcases hn : s.nextHeader with ⟨e | header, s'⟩
      · obtain ⟨hs', hflow | ⟨b, ht⟩⟩ := nextHeader_of_stopped hs hn
        · change Frame.flow s.reader.wire = s'.owed
          rw [hflow, hs'.owed]
        · exact absurd ⟨hs, _, _, ht⟩ h
      · obtain ⟨hflow, hrest', hp'⟩ := nextHeader_of_owed hn
        rw [hflow]
        exact settles_takeBody (hrest'.trans hrest) hp' fun e part r hb =>
          h ⟨hs, _, _, tears_of_nextHeader hn hb⟩

/-! ## Pulls that are broken off inside a frame -/

/-- What is still owed when a pull has been broken off: a payload is taken for complete that has been
staged, with whatever stands behind the part that was read, and otherwise that part is forgotten; what
follows is taken for a frame, unless the header was that of the last one. -/
def leaves (room : Nat) (filler : Bytes) (wire : Flow Fault) : Frame.Tear → Flow TransferError
  | .header _ => Frame.flow wire
  | .payload header part =>
    (if header.last then ⟨[], .ok ()⟩ else Frame.flow wire).after
      (if header.length.toNat ≤ room then [] else part ++ filler)

theorem nextHeader_of_torn_header {b : UInt8} {r : Reader} (hs : s.Idle)
    (h : Frame.Tears s.reader (.header b) r) :
    ∃ e s', s.nextHeader = (.error e, s') ∧ s'.Idle ∧ s'.reader = r := by
  generalize hr : s.reader = r₀, ht : Frame.Tear.header b = tear at h
  induction h generalizing s with
  | header hg =>
    subst hr
    have hread := Frame.readHeader_of_short hg (by simp [Frame.headerLength])
    exact ⟨_, _, nextHeader_of_error hread, ⟨hs.rest, hs.peerDone⟩, rfl⟩
  | payload => cases ht
  | later hh hskip _ ih =>
    subst hr
    obtain ⟨-, hl, -⟩ := Frame.bodyFlow_of_skipped hskip s.reader.wire
    rw [nextHeader_of_ok hh, if_pos hskip]
    exact ih ⟨hs.rest, hl⟩ rfl ht

theorem nextHeader_of_torn_payload {part : Bytes} {r : Reader} (hs : s.rest = [])
    (h : Frame.Tears s.reader (.payload header part) r) :
    ∃ e s', s.nextHeader = (.ok header, s') ∧ s'.rest = [] ∧ s'.peerDone = header.last ∧
      Frame.readBody s'.reader header.length.toNat = (.error e, part, r) := by
  generalize hr : s.reader = r₀, ht : Frame.Tear.payload header part = tear at h
  induction h generalizing s with
  | header => cases ht
  | @payload r r₁ r' header e part hh hb =>
    cases ht
    subst hr
    -- the payload that breaks off is not empty
    have hcounts : ¬ (header.isEmpty && !header.last) = true := fun hskip => by
      rw [(Frame.bodyFlow_of_skipped hskip r₁.wire).1, Frame.readBody_zero] at hb
      cases (Prod.mk.inj hb).1
    have hn := nextHeader_of_ok hh
    dsimp only at hn
    rw [if_neg hcounts] at hn
    exact ⟨e, _, hn, hs, rfl, hb⟩
  | later hh hskip _ ih =>
    subst hr
    rw [nextHeader_of_ok hh, if_pos hskip]
    exact ih hs rfl ht

/-- What is staged of a payload that breaks off has the length of the payload. -/
theorem stage_of_torn {length : Nat} {e : TransferError} {part : Bytes} {r : Reader}
    (h : Frame.readBody s.reader length = (.error e, part, r)) :
    ∃ filler, part.length + filler.length = length ∧ s.stage length =
      (.error e, { s with reader := r, staged := (part ++ filler).toArray, delivered := 0 }) := by
  have hle := (Frame.wire_readBody h).2.1
  let stale := slice s.staged part.length (length - part.length)
  have hstale : stale.length ≤ length - part.length := by
    simp only [stale, slice_eq]
    exact List.length_take_le ..
  refine ⟨stale ++ List.replicate (length - part.length - stale.length) 0, ?_, ?_⟩
  · rw [List.length_append, List.length_replicate]
    omega
  · rw [stage, h, ← List.append_assoc]

/-- **What a pull leaves owed that is broken off inside a frame.** -/
theorem pull_of_tears {tear : Frame.Tear} {r : Reader} (hs : s.Idle)
    (h : Frame.Tears s.reader tear r) (room : Nat) :
    ∃ e s' filler, Source.pull s room = (.error e, s') ∧ s'.owed = leaves room filler r.wire tear ∧
      ∀ header part, tear = .payload header part →
        part.length + filler.length = header.length.toNat := by
  have hpull : Source.pull s room = s.takeNext room := hs.pull_eq room
  rw [hpull, takeNext]
  cases tear with
  | header b =>
    obtain ⟨e, s', hn, hs', rfl⟩ := nextHeader_of_torn_header hs h
    rw [hn]
    exact ⟨e, s', [], rfl, hs'.owed, nofun⟩
  | payload header part =>
    obtain ⟨e, s', hn, hrest, hp, hb⟩ := nextHeader_of_torn_payload hs.rest h
    obtain ⟨filler, hlen, hstage⟩ := stage_of_torn hb
    rw [hn]
    dsimp only
    rw [takeBody]
    dsimp only
    by_cases hl : header.length.toNat ≤ room
    · rw [if_pos hl, hb]
      refine ⟨e, _, filler, rfl, ?_, ?_⟩
      · simp only [rest] at hrest
        simp only [FramedSource.owed, rest, hrest, hp, leaves, if_pos hl]
      · rintro _ _ ⟨⟩
        exact hlen
    · rw [if_neg hl, hstage]
      refine ⟨e, _, filler, rfl, ?_, ?_⟩
      · simp only [FramedSource.owed, rest, hp, leaves, if_neg hl, List.drop_zero]
      · rintro _ _ ⟨⟩
        exact hlen

/-! ## One pull after another -/

/-- No pull but the last one is broken off inside a frame. -/
def Untorn : FramedSource → List Nat → Prop
  | s, room :: next :: rooms => ¬ s.Torn ∧ Untorn (Source.pull s room).2 (next :: rooms)
  | _, _ => True

theorem honest_pull (h : ¬ s.Torn) (room : Nat) {results : List (Except TransferError Delivery)}
    (hr : (Source.pull s room).2.owed.Honest results) :
    s.owed.Honest ((Source.pull s room).1 :: results) := by
  have hpull := pull_settles h room
  rcases hp : Source.pull s room with ⟨e | pulled, s'⟩ <;> rw [hp] at hpull hr
  · rw [show s.owed = s'.owed from hpull]
    exact hr.error e
  · rw [hpull.1]
    exact hr.ok hpull.2

theorem honest_of_untorn {rooms : List Nat} (h : s.Untorn rooms) :
    s.owed.Honest (Source.pulls s rooms).1 := by
  induction rooms generalizing s with
  | nil => exact .nil _
  | cons room rooms ih =>
    change s.owed.Honest ((Source.pull s room).1 :: (Source.pulls (Source.pull s room).2 rooms).1)
    cases rooms with
    | nil =>
      by_cases ht : s.Torn
      · obtain ⟨hs, tear, r, ht⟩ := ht
        obtain ⟨e, s', filler, hp, -⟩ := pull_of_tears hs ht room
        rw [hp]
        exact (Flow.Honest.nil _).error e
      · exact honest_pull ht room (.nil _)
    | cons next rooms => exact honest_pull h.1 room (ih h.2)

/-- A source of which a pull succeeds was not torn. -/
theorem not_torn_of_ok {pulled : Delivery} (h : (Source.pull s room).1 = .ok pulled) : ¬ s.Torn := by
  rintro ⟨hs, tear, r, ht⟩
  obtain ⟨e, s', filler, hp, -⟩ := pull_of_tears hs ht room
  rw [hp] at h
  cases h

/-- A source is not torn whose reader stops between two frames. -/
theorem not_torn_of_stop {stop : Stop} {r : Reader}
    (h : s.reader.gather Frame.headerLength = ([], stop, r)) : ¬ s.Torn := by
  have hread := Frame.readHeader_of_short h (by simp [Frame.headerLength])
  rintro ⟨-, tear, r', ht⟩
  cases ht with
  | header hg => rw [h] at hg; cases hg
  | payload hh => rw [hread] at hh; cases hh
  | later hh => rw [hread] at hh; cases hh

/-- **Unless reading breaks off inside a frame, pulls are true to the wire, however many of them
fail.** The bytes delivered are the front of the payloads that the frames of the whole wire carry, and
the end is told only behind the last of them. A pull that is broken off inside a frame fails, but a
source that is pulled on after that is true to something else: it delivers a payload that was being
staged as if it were complete, tells the end if the frame was the last one, and otherwise takes the rest
of the frame for frames. -/
theorem honest_unless_torn (r : Reader) (rooms : List Nat) :
    (Untorn { reader := r } rooms → (Frame.flow ⟨r.content, .ok ()⟩).Honest
      (Source.pulls ({ reader := r } : FramedSource) rooms).1) ∧
    ∀ (s : FramedSource) (tear : Frame.Tear) (rest : Reader), s.Idle → Frame.Tears s.reader tear rest →
      ∀ room, ∃ e s' filler, Source.pull s room = (.error e, s') ∧
        (∀ header part, tear = .payload header part →
          part.length + filler.length = header.length.toNat) ∧
        Frame.flow ⟨s.reader.content, .ok ()⟩ = tear.flow ⟨rest.content, .ok ()⟩ ∧
        ∀ rooms, s'.Untorn rooms →
          (leaves room filler ⟨rest.content, .ok ()⟩ tear).Honest (Source.pulls s' rooms).1 := by
  refine ⟨fun h => ?_, fun s tear rest hs ht room => ?_⟩
  · have hs : Idle { reader := r } := ⟨rfl, rfl⟩
    have hhonest := honest_of_untorn h
    rwa [hs.owed] at hhonest
  · obtain ⟨e, s', filler, hpull, howed, hlen⟩ := pull_of_tears hs ht room
    refine ⟨e, s', filler, hpull, hlen, Frame.flow_of_tears ht, fun rooms h => ?_⟩
    have hhonest := honest_of_untorn h
    rwa [howed] at hhonest

/-- A read times out between two frames. -/
theorem honest_unless_torn_between :
    let r : Reader := ⟨[.data [0, 4, 1, 2], .fault ⟨.timedOut, ""⟩, .data [0, 3, 5]]⟩
    (Frame.flow ⟨r.content, .ok ()⟩).Honest
      (Source.pulls ({ reader := r } : FramedSource) [8, 8, 8]).1 := by
  intro r
  refine (honest_unless_torn r [8, 8, 8]).1 ⟨?_, ?_, trivial⟩
  · have hpull : (Source.pull ({ reader := r } : FramedSource) 8).1 = .ok (.of [1, 2] false) := by
      decide +kernel
    exact not_torn_of_ok hpull
  · have hgather : (Source.pull ({ reader := r } : FramedSource) 8).2.reader.gather
        Frame.headerLength = ([], .fault ⟨.timedOut, ""⟩, ⟨[.data [0, 3, 5]]⟩) := by decide +kernel
    exact not_torn_of_stop hgather

/-- The end is told though the connection has closed inside the last payload; the part of a payload that
was staged is delivered with zeros behind it; and the rest of a payload is taken for a frame. -/
theorem not_honest_when_torn :
    let pulls (pieces : List Piece) (rooms : List Nat) :=
      (Source.pulls ({ reader := ⟨pieces⟩ } : FramedSource) rooms).1
    let carried (pieces : List Piece) := Frame.flow ⟨(⟨pieces⟩ : Reader).content, .ok ()⟩
    let closing : List Piece := [.data [0, 9, 1, 2]]
    let staged : List Piece := [.data [0, 8, 1, 2]]
    let resumed : List Piece := [.data [0, 8, 1], .fault ⟨.timedOut, ""⟩, .data [0, 2, 9, 0, 1]]
    ¬ (carried closing).Honest (pulls closing [8, 8]) ∧
      ¬ (carried staged).Honest (pulls staged [2, 2, 2]) ∧
      ¬ (carried resumed).Honest (pulls resumed [8, 8]) := by
  intro pulls carried closing staged resumed
  have hclosing : pulls closing [8, 8] =
      [.error (.framing .closedInPayload)] ++ .ok (.of [] true) :: [] := by decide +kernel
  have hstaged : received (pulls staged [2, 2, 2]) = [1, 2, 0, 0] := by decide +kernel
  have hresumed : received (pulls resumed [8, 8]) = [9] := by decide +kernel
  refine ⟨fun h => ?_, fun h => ?_, fun h => ?_⟩
  · have hend : (carried closing).ending = .ok () := (h.ended hclosing rfl).2
    have hcut : (carried closing).ending = .error (.framing .closedInPayload) := by decide +kernel
    rw [hcut] at hend
    cases hend
  · have hprefix := h.front
    rw [hstaged] at hprefix
    exact absurd hprefix (by decide +kernel)
  · have hprefix := h.front
    rw [hresumed] at hprefix
    exact absurd hprefix (by decide +kernel)

end FramedSource

end BlockSync
