import BlockSync.Frame
import BlockSync.Storage

/-!
# Sources

A source delivers a stream in pulls. Two kinds differ in how they know the end of the stream: a raw
source has ended when a read delivers nothing, a framed source when the frame that says so has been
delivered, so that a connection that merely closes is an error.

* `Source`: what a pipe pulls from;
* `RawSource`: the bytes of a reader as they are;
* `FramedSource`: the payloads of the frames of a reader.
-/

namespace BlockSync

/-- What a pull delivers. -/
structure Delivery where
  /-- The bytes that were put into the room offered. -/
  bytes : Bytes
  /-- How many bytes the source says it has put there. -/
  count : Nat
  /-- No more bytes will ever arrive. -/
  ended : Bool
deriving DecidableEq, Repr

/-- A pull that says what it did. -/
def Delivery.of (bytes : Bytes) (ended : Bool) : Delivery := ⟨bytes, bytes.length, ended⟩

/-- A stream that is delivered in pulls. -/
class Source (σ : Type) where
  /-- Ask for at most `room` bytes, of which there is at least one. -/
  pull : (source : σ) → (room : Nat) → Except TransferError Delivery × σ
  /-- A bound on the bytes that are still to come. -/
  available : σ → Nat

/-! ## Raw sources -/

/-- The bytes of a reader as they are. -/
structure RawSource where
  reader : Reader
deriving DecidableEq, Repr

/-- Fill the room, unless the data ends before. -/
def RawSource.pull (s : RawSource) (room : Nat) : Except TransferError Delivery × RawSource :=
  match s.reader.gather room with
  | (bs, .full, r) => (.ok (.of bs false), ⟨r⟩)
  | (bs, .ended, r) => (.ok (.of bs true), ⟨r⟩)
  | (_, .fault f, r) => (.error (.io f), ⟨r⟩)

instance : Source RawSource where
  pull := RawSource.pull
  available s := s.reader.available

/-! ## Framed sources -/

/-- The payloads of the frames of a reader. A payload that exceeds the room of a pull is staged and
delivered over several pulls. -/
structure FramedSource where
  reader : Reader
  /-- The staged payload. -/
  staged : Array UInt8 := #[]
  /-- How much of the staged payload has been delivered. -/
  delivered : Nat := 0
  /-- The last frame has been met. -/
  peerDone : Bool := false
  /-- The number of frames met. -/
  frames : Nat := 0
deriving DecidableEq, Repr

namespace FramedSource

/-- How much of the staged payload is still to be delivered. -/
def undelivered (s : FramedSource) : Nat := s.staged.size - s.delivered

/-- Deliver from the staged payload. -/
def deliver (s : FramedSource) (room : Nat) : Delivery × FramedSource :=
  let count := min s.undelivered room
  let bs := (s.staged.extract s.delivered (s.delivered + count)).toList
  let s := { s with delivered := s.delivered + count }
  (.of bs (s.peerDone && s.undelivered == 0), s)

/-- Read headers until a frame carries something or is the last. -/
def nextHeader (s : FramedSource) : Except TransferError Frame.Header × FramedSource :=
  match h : Frame.readHeader s.reader with
  | (.error e, r) => (.error e, { s with reader := r })
  | (.ok header, r) =>
    have := Frame.available_lt_of_readHeader h
    let s := { s with reader := r, frames := s.frames + 1, peerDone := header.last }
    if header.isEmpty && !header.last then nextHeader s else (.ok header, s)
termination_by s.reader.available
decreasing_by assumption

/-- Read a payload into the staging area. What a payload cut short leaves there is delivered all the
same by the pulls that follow. -/
def stage (s : FramedSource) (length : Nat) : Except TransferError Unit × FramedSource :=
  let (result, bs, r) := Frame.readBody s.reader length
  let rest := slice s.staged bs.length (length - bs.length)
  let filler : Bytes := List.replicate (length - bs.length - rest.length) 0
  (result, { s with reader := r, staged := (bs ++ rest ++ filler).toArray, delivered := 0 })

/-- Deliver a payload that fits the room, or the part of a longer one that does. -/
def pull (s : FramedSource) (room : Nat) : Except TransferError Delivery × FramedSource :=
  if 0 < s.undelivered then
    let (pulled, s) := s.deliver room
    (.ok pulled, s)
  else if s.peerDone then (.ok (.of [] true), s)
  else
    match s.nextHeader with
    | (.error e, s) => (.error e, s)
    | (.ok header, s) =>
      let length := header.length.toNat
      if length ≤ room then
        let (result, bs, r) := Frame.readBody s.reader length
        (result.map fun _ => .of bs header.last, { s with reader := r })
      else
        match s.stage length with
        | (.error e, s) => (.error e, s)
        | (.ok (), s) =>
          let (pulled, s) := s.deliver room
          (.ok pulled, s)

end FramedSource

instance : Source FramedSource where
  pull := FramedSource.pull
  available s := s.undelivered + s.reader.available

end BlockSync
