import BlockSync.Frame

/-!
# Sinks

A sink takes a stream in pushes, of which the last one is marked.

* `Sink`: what a pipe pushes to;
* `RawSink`: the chunks one after another;
* `FramedSink`: a frame for every chunk;
* `NoSink`: for transducers that keep their result and have no output.
-/

namespace BlockSync

/-- A stream that is taken in pushes. -/
class Sink (κ : Type) where
  /-- Take a chunk in full; the last one is marked. -/
  push : (sink : κ) → (chunk : Bytes) → (last : Bool) → Except TransferError Unit × κ
  /-- Whether the sink takes output at all. -/
  takesOutput : κ → Bool

/-! ## Raw sinks -/

/-- The chunks one after another; the last one is passed on. -/
structure RawSink where
  writer : Writer
deriving DecidableEq, Repr

/-- Write a chunk. -/
def RawSink.push (s : RawSink) (chunk : Bytes) (last : Bool) :
    Except TransferError Unit × RawSink :=
  match s.writer.writeAll chunk with
  | (.error f, w) => (.error (.io f), ⟨w⟩)
  | (.ok (), w) =>
    if last then
      let (result, w) := w.flush
      (result.mapError .io, ⟨w⟩)
    else (.ok (), ⟨w⟩)

instance : Sink RawSink where
  push := RawSink.push
  takesOutput _ := true

/-! ## Framed sinks -/

/-- A frame for every chunk. -/
structure FramedSink where
  writer : Writer
  /-- The number of frames written. -/
  frames : Nat := 0
  /-- The last frame has been written. -/
  finished : Bool := false
deriving DecidableEq, Repr

/-- Write a chunk as one frame. After the last frame none is taken. -/
def FramedSink.push (s : FramedSink) (chunk : Bytes) (last : Bool) :
    Except TransferError Unit × FramedSink :=
  if s.finished then (.error (.framing .pushAfterEnd), s)
  else if framePayloadLimit < chunk.length then (.error (.framing (.chunkTooLarge chunk.length)), s)
  else
    match Frame.write s.writer chunk last with
    | (.error e, w) => (.error e, { s with writer := w })
    | (.ok (), w) => (.ok (), ⟨w, s.frames + 1, last⟩)

instance : Sink FramedSink where
  push := FramedSink.push
  takesOutput _ := true

/-! ## No sink -/

/-- Nothing is taken. -/
structure NoSink where
deriving DecidableEq, Repr

/-- Only nothing can be pushed. -/
def NoSink.push (s : NoSink) (chunk : Bytes) : Except TransferError Unit × NoSink :=
  (if chunk.isEmpty then .ok () else .error (.transform (.outputWithoutSink chunk.length)), s)

instance : Sink NoSink where
  push s chunk _ := s.push chunk
  takesOutput _ := false

end BlockSync
