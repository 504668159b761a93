import BlockSync.Delta.Encoder
import BlockSync.Delta.Patcher
import BlockSync.Pipe
import BlockSync.Signature.Emitter
import BlockSync.Signature.Loader

/-!
# Exchanges

An exchange brings a file up to date in phases, each of which runs through a pipe: the signature of
the basis is written and read, the delta of the new file against it is written, and the delta is
applied to the basis.

* `Settings`: what can be set;
* `Exchange.ofSettings`: the exchange with given settings, which are checked;
* `Exchange.writeSignature`, `Exchange.readSignature`, `Exchange.writeDelta`,
  `Exchange.writePatched`: the phases.
-/

namespace BlockSync

/-! ## Settings -/

/-- What can be set. -/
structure Settings where
  /-- The capacity of the queues. -/
  capacity : Nat := framePayloadLimit
  /-- The block length, if it is not to follow from the size of the basis. -/
  blockLength : Option UInt32 := none
  /-- The strong length, if it is not to follow from the size of the basis. -/
  strongLength : Option UInt32 := none
  /-- Whether the patched file has to have the digest that was announced. -/
  verify : Bool := true
deriving DecidableEq, Repr, Inhabited

/-- Checked settings, and the pipe for every phase. -/
structure Exchange where
  settings : Settings
  pipe : Pipe
deriving Inhabited

/-- The parameters for a basis of `size` bytes. -/
def Settings.params (s : Settings) (size : Nat) : Except TransferError Params :=
  let recommended := Params.forSize size
  Params.checked (s.blockLength.getD recommended.blockLength)
    (s.strongLength.getD recommended.strongLength)

/-- The exchange with given settings, of which the capacity is looked at first. -/
def Exchange.ofSettings (s : Settings) : Except TransferError Exchange := do
  let pipe ← Pipe.ofCapacity s.capacity
  s.blockLength.forM checkBlockLength
  s.strongLength.forM checkStrongLength
  return ⟨s, pipe⟩

/-- The exchange with the standard settings. -/
def Exchange.standard : Exchange := ⟨{}, .standard⟩

/-! ## Phases -/

namespace Exchange

variable {σ κ β : Type} [Source σ] [Sink κ] [Basis β] (x : Exchange)

/-- Write the signature of a basis of `size` bytes. -/
def writeSignature (size : Nat) (source : σ) (sink : κ) : Except Failure PipeTotals × κ :=
  match x.settings.params size >>= SignatureEmitter.start with
  | .error e => (.error e, sink)
  | .ok start =>
    let available := Source.available source
    let limit := Pipe.iterationsFor available (SignatureEmitter.outputBound available)
    let (result, run) := x.pipe.run limit source start sink
    (result, run.sink)

/-- Read a signature. -/
def readSignature (source : σ) : Except Failure Signature :=
  let limit := Pipe.iterationsFor (Source.available source) 0
  let (result, run) := x.pipe.run limit source SignatureLoader.start NoSink.mk
  match result with
  | .error f => .error f
  | .ok _ => run.bench.state.result.mapError .error

/-- Write the delta of a new file against an indexed signature. -/
def writeDelta (t : SignatureIndex) (source : σ) (sink : κ) : Except Failure DeltaTotals × κ :=
  let available := Source.available source
  let limit := Pipe.iterationsFor available (DeltaEncoder.outputBound available)
  let (result, run) := x.pipe.run limit source (DeltaEncoder.start t) sink
  (result.map fun _ => run.bench.state.totals, run.sink)

/-- Apply a delta to a basis; the number of bytes written is given. -/
def writePatched (basis : β) (source : σ) (sink : κ) : Except Failure Nat × κ :=
  match Patcher.start basis x.settings.verify with
  | .error e => (.error e, sink)
  | .ok start =>
    let available := Source.available source
    let limit := Pipe.iterationsFor available (start.outputBound available)
    let (result, run) := x.pipe.run limit source start sink
    (result.map fun _ => run.bench.state.written, run.sink)

end Exchange

end BlockSync
