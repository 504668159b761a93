import BlockSync.Proofs.Stream.Frames

/-!
# Links

What one party pushes to its sink the other pulls from its source.

* `Link`: a sink and a source at its other end;
* `Link.raw`, `Link.framed`: through a file, and over a connection that may go on to carry other
  things.
-/

namespace BlockSync

/-- A kind of sinks, and what is delivered at their other ends. -/
structure Link (κ σ : Type) [Sink κ] [Source σ] where
  /-- What a sink has taken, and whether that is all. -/
  Taken : κ → Bytes → Bool → Prop
  faithful : Sink.Faithful Taken true framePayloadLimit
  /-- The source is at the other end of the sink. -/
  Joined : κ → σ → Prop
  delivers : ∀ {sink : κ} {bs : Bytes} {source : σ}, Taken sink bs true → Joined sink source →
    Source.Delivers source ⟨bs, .ok ()⟩

namespace Link

/-- What was written is read as it is, in reads of any sizes. -/
def raw : Link RawSink RawSource where
  Taken := RawSink.Holds []
  faithful := RawSink.faithful [] _
  Joined sink source := source.reader.flow = ⟨sink.writer.written.toList, .ok ()⟩
  delivers {sink bs source} ht hj := by
    have h := source.delivers
    rw [RawSource.flow, hj, ht.2] at h
    exact h

/-- Frames are read in reads of any sizes, whatever may follow them. -/
def framed : Link FramedSink FramedSource where
  Taken := FramedSink.Holds []
  faithful := FramedSink.faithful []
  Joined sink source := source.rest = [] ∧ source.peerDone = false ∧
    ∃ rest : Flow Fault, source.reader.flow = rest.after sink.writer.written.toList
  delivers {sink bs source} ht hj := by
    obtain ⟨-, -, wire, hw, hflow⟩ := ht
    obtain ⟨hnil, hp, rest, hr⟩ := hj
    rw [List.nil_append] at hw
    have h := source.delivers
    rw [FramedSource.flow, hnil, if_neg (by simp [hp]), Flow.after_nil, hr, hw, hflow] at h
    exact h

/-- What was written can be read from where it was written. -/
theorem raw_joined (sink : RawSink) :
    raw.Joined sink ⟨.ofBytes sink.writer.written.toList⟩ := Reader.flow_ofBytes _

theorem framed_joined (sink : FramedSink) :
    framed.Joined sink { reader := .ofBytes sink.writer.written.toList } :=
  ⟨rfl, rfl, ⟨[], .ok ()⟩, by rw [Reader.flow_ofBytes, Flow.after, List.append_nil]⟩

end Link

end BlockSync
