import BlockSync.Stream.Reader
import BlockSync.Stream.Writer

/-!
# Frames

On a connection every chunk travels as a frame: two bytes of header, most significant first, and a
payload. The upper fifteen bits of the header count the bytes of the payload and the lowest bit
tells that no frame follows.

* `Frame.Header.encode`, `Frame.Header.decode`: the two bytes of a header;
* `Frame.encode`, `Frame.decode`: a whole frame at the front of a byte string;
* `Frame.readHeader`, `Frame.readBody`: the same from a reader;
* `Frame.write`: a whole frame to a writer.
-/

namespace BlockSync

/-- The length of an encoded header. -/
def Frame.headerLength : Nat := 2

/-- The header of a frame. -/
structure Frame.Header where
  /-- The length of the payload. -/
  length : UInt16
  /-- No frame follows. -/
  last : Bool
deriving DecidableEq, Repr, Inhabited

/-! ## On the wire -/

namespace Frame.Header

/-- The header of a payload of `length` bytes, if a frame can carry it. -/
def ofLength (length : Nat) (last : Bool) : Except TransferError Frame.Header :=
  if length ≤ framePayloadLimit then .ok ⟨UInt16.ofNat length, last⟩
  else .error (.framing (.payloadTooLarge length))

/-- The header of the frame that carries nothing and is the last. -/
def closing : Frame.Header := ⟨0, true⟩

/-- Whether the frame carries nothing. -/
def isEmpty (h : Frame.Header) : Bool := h.length == 0

/-- The two bytes of a header; of a length beyond the limit the low fifteen bits travel. -/
def encode (h : Frame.Header) : Bytes :=
  BigEndian.encode Frame.headerLength (2 * h.length.toNat + h.last.toNat)

/-- The header in two bytes; every pair of bytes is one. -/
def decode (upper lower : UInt8) : Frame.Header :=
  let packed := BigEndian.decode [upper, lower]
  ⟨UInt16.ofNat (packed / 2), packed % 2 == 1⟩

end Frame.Header

namespace Frame

/-- A whole frame. -/
def encode (payload : Bytes) (last : Bool) : Except TransferError Bytes := do
  let header ← Frame.Header.ofLength payload.length last
  return header.encode ++ payload

/-- The frame at the front of a byte string. -/
def decode : Bytes → Except TransferError (Frame.Header × Bytes)
  | upper :: lower :: rest =>
    let header := Frame.Header.decode upper lower
    let length := header.length.toNat
    if length ≤ rest.length then .ok (header, rest.take length)
    else .error (.framing (.truncatedPayload rest.length length))
  | short => .error (.framing (.truncatedHeader short.length))

end Frame

/-! ## Over a connection -/

/-- Why a request was not filled: a connection that closes inside one breaks the protocol. -/
def Frame.cutShort (cause : FramingCause) : Stop → TransferError
  | .fault f => if f.kind = .unexpectedEof then .framing cause else .io f
  | _ => .framing cause

/-- Read a header. -/
def Frame.readHeader (r : Reader) : Except TransferError Frame.Header × Reader :=
  match r.gather Frame.headerLength with
  | ([upper, lower], .full, r) => (.ok (.decode upper lower), r)
  | (_, stop, r) => (.error (Frame.cutShort .closedInHeader stop), r)

/-- Read a payload of known length. The bytes that were read are given also if they are too few. -/
def Frame.readBody (r : Reader) (length : Nat) : Except TransferError Unit × Bytes × Reader :=
  match r.gather length with
  | (bs, .full, r) => (.ok (), bs, r)
  | (bs, stop, r) => (.error (Frame.cutShort .closedInPayload stop), bs, r)

theorem Frame.available_lt_of_readHeader {r r' : Reader} {h : Frame.Header}
    (hr : Frame.readHeader r = (.ok h, r')) : r'.available < r.available := by
  unfold Frame.readHeader at hr
  split at hr
  · next hg =>
    have := Reader.available_gather hg
    simp only [Prod.mk.injEq] at hr
    simp only [List.length_cons, List.length_nil] at this
    rw [← hr.2]; omega
  · simp at hr

/-- Write a header. -/
def Frame.writeHeader (h : Frame.Header) (w : Writer) : Except TransferError Unit × Writer :=
  let (result, w) := w.writeAll h.encode
  (result.mapError .io, w)

/-- Write a whole frame and pass it on. Nothing is written of a frame that is too large. -/
def Frame.write (w : Writer) (payload : Bytes) (last : Bool) : Except TransferError Unit × Writer :=
  match Frame.Header.ofLength payload.length last with
  | .error e => (.error e, w)
  | .ok header =>
    match w.writeAll header.encode with
    | (.error f, w) => (.error (.io f), w)
    | (.ok (), w) =>
      match w.writeAll payload with
      | (.error f, w) => (.error (.io f), w)
      | (.ok (), w) =>
        let (result, w) := w.flush
        (result.mapError .io, w)

end BlockSync
