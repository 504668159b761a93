import BlockSync.Stream.Sink

/-!
# What sinks take

* `Sink.Faithful`: every chunk that is pushed is taken, behind those before it;
* `RawSink.faithful`, `NoSink.faithful`: a writer that never fails makes a raw sink faithful; so is
  a sink that takes no output.
-/

namespace BlockSync

namespace Sink

/-- Sinks take all chunks up to a length. `Holds sink bs ended` says that the sink has taken the bytes
`bs`, and whether the last chunk was among them. -/
structure Faithful {κ : Type} [Sink κ] (Holds : κ → Bytes → Bool → Prop) (takes : Bool)
    (limit : Nat) : Prop where
  takesOutput : ∀ {sink : κ} {bs : Bytes} {ended : Bool}, Holds sink bs ended →
    Sink.takesOutput sink = takes
  push : ∀ {sink : κ} {bs : Bytes}, takes = true → Holds sink bs false → ∀ {chunk : Bytes},
    chunk.length ≤ limit → ∀ last : Bool,
      ∃ sink', Sink.push sink chunk last = (.ok (), sink') ∧ Holds sink' (bs ++ chunk) last

end Sink

/-! ## Writers that never fail -/

namespace Writer

/-- The writer takes everything and can always be flushed. -/
structure Reliable (w : Writer) : Prop where
  limit : w.limit = none
  flushFault : w.flushFault = none

theorem writeAll_of_reliable {w : Writer} (h : w.Reliable) (bs : Bytes) :
    ∃ w', w.writeAll bs = (.ok (), w') ∧ w'.Reliable ∧
      w'.written.toList = w.written.toList ++ bs := by
  obtain ⟨written, flushes, limit, writeFault, flushFault⟩ := w
  obtain ⟨rfl, rfl⟩ := h
  refine ⟨⟨written ++ bs, flushes, none, writeFault, none⟩, ?_, ⟨rfl, rfl⟩, by simp⟩
  simp [writeAll, takes]

theorem flush_of_reliable {w : Writer} (h : w.Reliable) :
    ∃ w', w.flush = (.ok (), w') ∧ w'.Reliable ∧ w'.written = w.written :=
  ⟨{ w with flushes := w.flushes + 1 }, by simp [flush, h.flushFault], ⟨h.limit, h.flushFault⟩, rfl⟩

end Writer

/-! ## Raw sinks -/

namespace RawSink

/-- Behind what was written before, the bytes `bs` were written. -/
def Holds (before : Bytes) (s : RawSink) (bs : Bytes) (_ended : Bool) : Prop :=
  s.writer.Reliable ∧ s.writer.written.toList = before ++ bs

/-- Nothing has been pushed to a new sink. -/
theorem holds_new : RawSink.Holds [] ⟨{}⟩ [] false := ⟨⟨rfl, rfl⟩, rfl⟩

theorem faithful (before : Bytes) (limit : Nat) :
    Sink.Faithful (RawSink.Holds before) true limit where
  takesOutput _ := rfl
  push {s bs} _ h chunk _ last := by
    obtain ⟨w, hw, hr, hc⟩ := Writer.writeAll_of_reliable h.1 chunk
    have hb : w.written.toList = before ++ (bs ++ chunk) := by
      rw [hc, h.2, List.append_assoc]
    change ∃ s', s.push chunk last = _ ∧ _
    unfold RawSink.push
    rw [hw]
    cases last with
    | false => exact ⟨⟨w⟩, rfl, hr, hb⟩
    | true =>
      obtain ⟨w', hw', hr', hc'⟩ := Writer.flush_of_reliable hr
      exact ⟨⟨w'⟩, by simp only [hw']; rfl, hr', by rw [hc', hb]⟩

end RawSink

/-! ## No sink -/

namespace NoSink

/-- Of a sink that takes no output there is nothing to say. -/
def Holds (_ : NoSink) (_ : Bytes) (_ : Bool) : Prop := True

theorem holds_new : NoSink.Holds ⟨⟩ [] false := trivial

theorem faithful (limit : Nat) : Sink.Faithful NoSink.Holds false limit where
  takesOutput _ := rfl
  push h := nomatch h

end NoSink

end BlockSync
