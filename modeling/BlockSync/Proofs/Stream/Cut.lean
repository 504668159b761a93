import BlockSync.Proofs.Stream.Frames

/-!
# Connections that break

The frames on a wire tell where their stream ends. Wherever a wire is cut, what is left of it is
therefore told from a stream that is complete.

* `Frame.Wire`: a wire that carries a byte string, and so does every part of it up to a cut, but as a
  stream that is broken off; `Frame.Wire.frame`: it is extended by a frame;
* `Sink.Honest`: what a sink says it has taken it has taken;
* **`FramedSink.honest`**: whatever its writer, a framed sink leaves such a wire behind;
* `FramedSource.Receives`: a source that reads a wire.
-/

namespace BlockSync

namespace Frame

variable {wire bs payload : Bytes} {last ended : Bool}

/-- A frame that is cut carries a part of its payload, and breaks off. -/
theorem flow_of_cut (h : payload.length ≤ framePayloadLimit) (ending : Except Fault Unit) {cut : Bytes}
    (hcut : cut <+: Header.encode ⟨UInt16.ofNat payload.length, last⟩ ++ payload)
    (hne : last = true → cut ≠ Header.encode ⟨UInt16.ofNat payload.length, last⟩ ++ payload) :
    ∃ front cause, front <+: payload ∧
      flow ⟨cut, ending⟩ = ⟨front, .error (cutShort cause (stopOf ending))⟩ := by
  have hlen := toNat_length h
  have hle : (⟨UInt16.ofNat payload.length, last⟩ : Header).length.toNat ≤ framePayloadLimit := by
    rw [hlen]
    exact h
  obtain ⟨upper, lower, he, hd⟩ := Header.decode_encode hle
  rw [he] at hcut hne
  match cut, hcut, hne with
  | [], _, _ => exact ⟨[], .closedInHeader, List.nil_prefix, flow_of_short Nat.zero_lt_two⟩
  | [_], _, _ => exact ⟨[], .closedInHeader, List.nil_prefix, flow_of_short Nat.one_lt_two⟩
  | u :: l :: part, hcut, hne =>
    have hcut : u :: l :: part <+: upper :: lower :: payload := hcut
    rw [List.cons_prefix_cons, List.cons_prefix_cons] at hcut
    obtain ⟨rfl, rfl, hpart⟩ := hcut
    have hheader : flow ⟨u :: l :: part, ending⟩ =
        bodyFlow ⟨UInt16.ofNat payload.length, last⟩ ⟨part, ending⟩ := by
      rw [← hd]
      exact flow_header u l ⟨part, ending⟩
    rcases Nat.lt_or_ge part.length payload.length with hl | hl
    · refine ⟨[], .closedInPayload, List.nil_prefix, ?_⟩
      rw [hheader]
      exact bodyFlow_of_short (by rw [hlen]; exact hl)
    · -- the payload is complete, and the last frame would be
      obtain rfl : part = payload := hpart.eq_of_length_le hl
      have hopen : last = false := Bool.eq_false_iff.mpr fun hlast => hne hlast rfl
      refine ⟨part, .closedInHeader, List.prefix_refl _, ?_⟩
      have hend : flow ⟨[], ending⟩ = ⟨[], .error (cutShort .closedInHeader (stopOf ending))⟩ :=
        flow_of_short Nat.zero_lt_two
      have hbody : bodyFlow ⟨UInt16.ofNat part.length, last⟩ (Flow.after ⟨[], ending⟩ part) = _ :=
        bodyFlow_after ⟨[], ending⟩ hlen.symm
      rw [if_neg (by simp [hopen]), hend, Flow.after, Flow.after, List.append_nil] at hbody
      rw [hheader, hbody]

/-- A wire carries a byte string, and the end of the stream behind it if `ended`. A part of it up to a
cut carries a part of the byte string and breaks off. -/
structure Wire (wire bs : Bytes) (ended : Bool) : Prop where
  whole : ∀ rest : Flow Fault,
    flow (rest.after wire) = if ended then ⟨bs, .ok ()⟩ else (flow rest).after bs
  cut : ∀ {cut : Bytes}, cut <+: wire → (ended = true → cut ≠ wire) → ∀ ending : Except Fault Unit,
    ∃ front cause, front <+: bs ∧
      flow ⟨cut, ending⟩ = ⟨front, .error (cutShort cause (stopOf ending))⟩

theorem Wire.nil : Wire [] [] false where
  whole rest := by
    rw [Flow.after_nil, Flow.after_nil]
    rfl
  cut hcut _ ending := by
    obtain rfl := List.prefix_nil.mp hcut
    exact ⟨[], .closedInHeader, List.nil_prefix, flow_of_short Nat.zero_lt_two⟩

/-- A frame is written behind those that are there. -/
theorem Wire.frame (h : Wire wire bs false) (hl : payload.length ≤ framePayloadLimit) (last : Bool) :
    Wire (wire ++ (Header.encode ⟨UInt16.ofNat payload.length, last⟩ ++ payload)) (bs ++ payload)
      last where
  whole rest := by
    rw [← Flow.after_after, h.whole, if_neg (by decide), flow_frame hl]
    cases last <;> simp [Flow.after]
  cut {cut} hcut hne ending := by
    rcases List.prefix_or_prefix_of_prefix hcut (List.prefix_append wire _) with hold | hnew
    · obtain ⟨front, cause, hfront, hflow⟩ := h.cut hold (fun hc => by cases hc) ending
      exact ⟨front, cause, hfront.trans (List.prefix_append _ _), hflow⟩
    · -- the cut is inside the new frame
      obtain ⟨part, rfl⟩ := hnew
      rw [List.prefix_append_right_inj] at hcut
      obtain ⟨front, cause, hfront, hflow⟩ := flow_of_cut hl ending hcut fun hlast heq =>
        hne hlast (by rw [heq])
      refine ⟨bs ++ front, cause, (List.prefix_append_right_inj bs).mpr hfront, ?_⟩
      have hwhole := h.whole ⟨part, ending⟩
      rw [if_neg (by decide), hflow] at hwhole
      exact hwhole

end Frame

/-! ## Honest sinks -/

/-- A sink that says of a push that it has succeeded has taken the chunk. -/
structure Sink.Honest {κ : Type} [Sink κ] (Holds : κ → Bytes → Bool → Prop) (limit : Nat) : Prop where
  push : ∀ {sink sink' : κ} {bs chunk : Bytes} {last : Bool}, Holds sink bs false →
    chunk.length ≤ limit → Sink.push sink chunk last = (.ok (), sink') → Holds sink' (bs ++ chunk) last

namespace Writer

theorem written_of_writeAll {w w' : Writer} {bs : Bytes} (h : w.writeAll bs = (.ok (), w')) :
    w'.written.toList = w.written.toList ++ bs := by
  simp only [writeAll, Prod.mk.injEq] at h
  obtain ⟨hok, rfl⟩ := h
  split at hok
  · next hc => simp [hc]
  · cases hok

theorem written_flush (w : Writer) : w.flush.2.written = w.written := rfl

end Writer

namespace Frame

theorem written_of_write {w w' : Writer} {payload : Bytes} {last : Bool}
    (h : Frame.write w payload last = (.ok (), w')) : w'.written.toList =
      w.written.toList ++ (Header.encode ⟨UInt16.ofNat payload.length, last⟩ ++ payload) := by
  unfold Frame.write Header.ofLength at h
  split at h
  · next hh =>
    cases h
  · next header hh =>
    split at hh
    · cases hh
      split at h
      · cases h
      · next w₁ h₁ =>
        split at h
        · cases h
        · next w₂ h₂ =>
          have hw : w₂.flush.2 = w' := congrArg Prod.snd h
          rw [← hw, Writer.written_flush, Writer.written_of_writeAll h₂,
            Writer.written_of_writeAll h₁, List.append_assoc]
    · cases hh

end Frame

namespace FramedSink

/-- Behind what was written before, a wire was written that carries the byte string. -/
def Carries (before : Bytes) (s : FramedSink) (bs : Bytes) (ended : Bool) : Prop :=
  s.finished = ended ∧ ∃ wire, s.writer.written.toList = before ++ wire ∧ Frame.Wire wire bs ended

theorem carries_new {s : FramedSink} (h : s.finished = false) :
    Carries s.writer.written.toList s [] false :=
  ⟨h, [], (List.append_nil _).symm, .nil⟩

/-- **Whatever its writer, a framed sink has written what it says it has taken**, in frames of which
only the last one says so. -/
theorem honest (before : Bytes) : Sink.Honest (Carries before) framePayloadLimit where
  push {s s' bs chunk last} h hl hpush := by
    obtain ⟨hf, wire, hw, hwire⟩ := h
    change s.push chunk last = _ at hpush
    rw [FramedSink.push, if_neg (by simp [hf]), if_neg (by omega)] at hpush
    split at hpush
    · cases hpush
    · next w' hwrite =>
      cases hpush
      exact ⟨rfl, _, by rw [Frame.written_of_write hwrite, hw, List.append_assoc],
        hwire.frame hl last⟩

end FramedSink

/-! ## Reading a wire -/

/-- The source has not yet read anything of this wire. -/
structure FramedSource.Receives (s : FramedSource) (wire : Flow Fault) : Prop where
  rest : s.rest = []
  peerDone : s.peerDone = false
  reader : s.reader.flow = wire

/-- It delivers what the wire carries. -/
theorem FramedSource.Receives.delivers {s : FramedSource} {wire : Flow Fault} (h : s.Receives wire) :
    Source.Delivers s (Frame.flow wire) := by
  have hs := s.delivers
  rwa [FramedSource.flow, h.rest, if_neg (by simp [h.peerDone]), Flow.after_nil, h.reader] at hs

end BlockSync
