import BlockSync.Format

/-!
# What can go wrong

A transfer that fails does so for a stated cause.

* `Fault`: a failed read, write or lookup of the environment;
* `TransferError`: every cause for which a transfer stops, with its wording
  (`TransferError.message`) and its category (`TransferError.category`);
* `Breach`: a precondition of an operation that its caller broke;
* `Failure`: how a run ends that does not succeed.
-/

namespace BlockSync

/-! ## Faults of the environment -/

/-- The kind of a failed read, write or lookup. -/
inductive FaultKind where
  | notFound
  | permissionDenied
  | connectionReset
  | brokenPipe
  | unexpectedEof
  | writeZero
  | interrupted
  | timedOut
  | isADirectory
  | notADirectory
  /-- A name that no file can have. -/
  | invalidName
  /-- A request that cannot be made. -/
  | invalidRequest
  | other
deriving DecidableEq, Repr

/-- A failed read, write or lookup. -/
structure Fault where
  kind : FaultKind
  message : String := ""
deriving DecidableEq, Repr

/-- The data ended before a request was filled. -/
def Fault.unexpectedEof : Fault := ⟨.unexpectedEof, "failed to fill whole buffer"⟩

/-- A writer took none of the bytes it was given. -/
def Fault.writeZero : Fault := ⟨.writeZero, "failed to write whole buffer"⟩

/-! ## Causes -/

/-- How a peer or a caller broke the framing rules. -/
inductive FramingCause where
  /-- A frame was to carry more than it can. -/
  | payloadTooLarge (length : Nat)
  /-- A frame was cut inside its header. -/
  | truncatedHeader (length : Nat)
  /-- A frame was cut inside its payload. -/
  | truncatedPayload (length announced : Nat)
  /-- The connection closed inside a header. -/
  | closedInHeader
  /-- The connection closed inside a payload. -/
  | closedInPayload
  /-- A chunk followed the one that was marked as last. -/
  | pushAfterEnd
  /-- A chunk was too long for one frame. -/
  | chunkTooLarge (length : Nat)
  | other (text : String)
deriving DecidableEq, Repr

/-- Why a stream could not be transformed. -/
inductive TransformCause where
  /-- Output was produced where none is taken. -/
  | outputWithoutSink (length : Nat)
  | other (text : String)
deriving DecidableEq, Repr

/-- What was wrong with an invocation. -/
inductive ArgumentCause where
  /-- A queue capacity outside 1 to `framePayloadLimit`. -/
  | capacityOutOfRange (capacity : Nat)
  /-- No address to listen on. -/
  | noAddress
  /-- A path that does not name a file. -/
  | notAFile (path : String)
  | other (text : String)
deriving DecidableEq, Repr

/-- What was wrong with a delta stream. -/
inductive DeltaCause where
  | wrongMark (found : Bytes)
  | unknownOpcode (code : UInt8)
  /-- The stream stopped before its final record was complete. -/
  | endedEarly
  /-- Bytes followed the final record. -/
  | trailingBytes (length : Nat)
  | other (text : String)
deriving DecidableEq, Repr

/-- What was wrong with a signature stream. -/
inductive SignatureCause where
  | wrongMark (found : Bytes)
  /-- The stream stopped before its header was complete. -/
  | endedInHeader
  /-- The stream stopped inside a record. -/
  | endedInRecord
  /-- The signature was asked for before its stream had ended. -/
  | incomplete
  | other (text : String)
deriving DecidableEq, Repr

/-- Why a transfer stopped. -/
inductive TransferError where
  /-- Reading, writing or opening failed. -/
  | io (fault : Fault)
  /-- The framing rules were broken. -/
  | framing (cause : FramingCause)
  /-- The stream could not be transformed. -/
  | transform (cause : TransformCause)
  /-- The invocation was wrong. -/
  | argument (cause : ArgumentCause)
  /-- A block length outside its range. -/
  | blockLength (length : UInt32)
  /-- A strong length outside its range. -/
  | strongLength (length : UInt32)
  /-- A copy reaches past the end of the basis. -/
  | copyOutOfBounds (offset length basisSize : Nat)
  /-- The reconstructed file is not the one that was announced. -/
  | checksumMismatch (expected actual : Bytes)
  | corruptedDelta (cause : DeltaCause)
  | invalidSignature (cause : SignatureCause)
deriving DecidableEq, Repr

/-- The four categories of transfer errors. -/
inductive ErrorCategory where
  /-- The environment failed. -/
  | io
  /-- The connection can no longer be trusted. -/
  | framing
  /-- The data could not be transformed. -/
  | transform
  /-- The invocation was wrong, which is found before anything is read. -/
  | argument
deriving DecidableEq, Repr

/-- The category of an error. -/
def TransferError.category : TransferError → ErrorCategory
  | .io _ => .io
  | .framing _ => .framing
  | .argument _ => .argument
  | .transform _ | .blockLength _ | .strongLength _ | .copyOutOfBounds _ _ _ | .checksumMismatch _ _
  | .corruptedDelta _ | .invalidSignature _ => .transform

/-! ## Wording -/

/-- The wording of a framing cause. -/
def FramingCause.message : FramingCause → String
  | .payloadTooLarge n => s!"frame payload too large: {n} > {framePayloadLimit}"
  | .truncatedHeader n => s!"truncated frame header: {n} of 2 bytes"
  | .truncatedPayload n m => s!"truncated frame payload: {n} of {m} bytes"
  | .closedInHeader => "connection closed inside frame header"
  | .closedInPayload => "connection closed inside frame payload"
  | .pushAfterEnd => "push after end-of-stream frame"
  | .chunkTooLarge n => s!"chunk of {n} bytes exceeds frame limit {framePayloadLimit}"
  | .other text => text

/-- The wording of a transform's cause. -/
def TransformCause.message : TransformCause → String
  | .outputWithoutSink n => s!"job produced {n} bytes with no sink attached"
  | .other text => text

/-- The wording of an argument's cause. -/
def ArgumentCause.message : ArgumentCause → String
  | .capacityOutOfRange n => s!"window capacity must be 1-{framePayloadLimit}, got {n}"
  | .noAddress => "bind address resolved to nothing"
  | .notAFile path => s!"{path} is not a file"
  | .other text => text

/-- The wording of a delta's cause. -/
def DeltaCause.message : DeltaCause → String
  | .wrongMark found => s!"bad magic: expected {decimals deltaMark}, got {decimals found}"
  | .unknownOpcode code => s!"unknown opcode 0x{hex [code]}"
  | .endedEarly => "delta stream ended before END"
  | .trailingBytes n => s!"{n} trailing bytes after end of delta"
  | .other text => text

/-- The wording of a signature's cause. -/
def SignatureCause.message : SignatureCause → String
  | .wrongMark found => s!"bad magic: expected {decimals signatureMark}, got {decimals found}"
  | .endedInHeader => "stream ended before signature header"
  | .endedInRecord => "stream ended inside a block record"
  | .incomplete => "signature stream incomplete"
  | .other text => text

/-- The wording of an error. -/
def TransferError.message : TransferError → String
  | .io fault => s!"I/O error: {fault.message}"
  | .framing cause => s!"Protocol violation: {cause.message}"
  | .transform cause => s!"Transform failed: {cause.message}"
  | .argument cause => s!"Invalid argument: {cause.message}"
  | .blockLength n => s!"Invalid block length: {n} (must be {minBlockLength}-{maxBlockLength})"
  | .strongLength n => s!"Invalid hash length: {n} (must be {minStrongLength}-{maxStrongLength})"
  | .copyOutOfBounds offset length size =>
    s!"Invalid copy bounds: offset {offset} + len {length} exceeds basis size {size}"
  | .checksumMismatch expected actual =>
    s!"Checksum mismatch: expected {decimals expected}, got {decimals actual}"
  | .corruptedDelta cause => s!"Corrupted delta data: {cause.message}"
  | .invalidSignature cause => s!"Invalid signature: {cause.message}"

/-! ## Broken preconditions -/

/-- A precondition that a caller broke; the operation did nothing. -/
inductive Breach where
  /-- More was to leave a queue than it holds. -/
  | tooFewHeld (count held : Nat)
  /-- More was to be held by a queue than it has room for. -/
  | tooLittleRoom (count room : Nat)
  /-- A file was to be cut into blocks of no length. -/
  | emptyBlocks
  /-- The window of a delta had moved past the end of the file. -/
  | windowPastEnd
deriving DecidableEq, Repr

/-- The wording of a breach. -/
def Breach.message : Breach → String
  | .tooFewHeld count held => s!"consumed {count} of {held} bytes"
  | .tooLittleRoom count room => s!"committed {count} with {room} bytes of room"
  | .emptyBlocks => "block length must not be zero"
  | .windowPastEnd => "window past the end of the file"

/-- How a run ends that does not succeed. -/
inductive Failure where
  /-- A transfer error. -/
  | error (cause : TransferError)
  /-- A broken precondition. -/
  | breach (cause : Breach)
  /-- The run was stopped before it had come to an end. -/
  | unfinished
deriving DecidableEq, Repr

/-- The wording of a failure. -/
def Failure.message : Failure → String
  | .error cause => cause.message
  | .breach cause => cause.message
  | .unfinished => "the run did not come to an end"

instance : Coe TransferError Failure := ⟨.error⟩
instance : Coe Breach Failure := ⟨.breach⟩

end BlockSync
