import BlockSync.Delta.Instruction
import BlockSync.Transducer
import BlockSync.Signature.Index

/-!
# Computing deltas

The transducer from a new file to its delta against an indexed signature. A window of one block
length moves along the file. Where it agrees with a block of the basis that block is copied and the
window starts afresh behind it; otherwise its first byte joins the run of bytes to insert and the
window moves on by one byte. What is left of the window at the end may agree with a short last
block.

* `DeltaEncoder.start`: the mark waits to be written;
* `DeltaEncoder.absorb`, `DeltaEncoder.endFile`: one byte arrives, or the file ends;
* `DeltaEncoder.copy`, `DeltaEncoder.releaseRun`: copies that continue each other are merged, and a
  run is inserted before the copy behind it, or when it has become long;
* `DeltaEncoder.pass`, `DeltaEncoder.overrun`: the same for a window without length;
* `DeltaEncoder.step`: no input is taken while output waits.
-/

namespace BlockSync

/-- The length at which a run of bytes is inserted. -/
def insertLimit : Nat := 32768

/-- A copy that is held back, since the next one may continue it. -/
structure PendingCopy where
  offset : UInt64
  length : UInt32
deriving DecidableEq, Repr

/-- Two copies as one, if the second continues the first and the length can be written. -/
def PendingCopy.merge? (c d : PendingCopy) : Option PendingCopy :=
  if c.offset.toNat + c.length.toNat = d.offset.toNat ∧
      c.length.toNat + d.length.toNat < UInt32.size then
    some ⟨c.offset, c.length + d.length⟩
  else none

/-- The state of writing a delta. -/
structure DeltaEncoder where
  index : SignatureIndex
  /-- The run of bytes to insert, and behind it the window. -/
  buffer : Array UInt8
  /-- The length of the run. -/
  run : Nat
  /-- The checksum of the last full window, and the byte that has left it. -/
  last : Option (RollingSum × UInt8)
  pending : Option PendingCopy
  hasher : Blake3.Hasher
  backlog : Backlog
  totals : DeltaTotals
  /-- The closing is issued. -/
  finished : Bool

namespace DeltaEncoder

/-- A delta against an indexed signature. -/
def start (t : SignatureIndex) : DeltaEncoder where
  index := t
  buffer := #[]
  run := 0
  last := none
  pending := none
  hasher := .empty
  backlog := Backlog.empty.append deltaMark
  totals := .zero
  finished := false

/-! ## Issuing instructions -/

/-- An instruction waits to be written. -/
def issue (e : DeltaEncoder) (i : Instruction) : DeltaEncoder :=
  { e with backlog := e.backlog.append i.encode, totals := e.totals.add i }

/-- The copy that is held back is issued. -/
def releaseCopy (e : DeltaEncoder) : DeltaEncoder :=
  match e.pending with
  | none => e
  | some c => { e with pending := none }.issue (.copy c.offset c.length)

/-- A copy continues the one that is held back, or is held back in its place. -/
def copy (e : DeltaEncoder) (c : PendingCopy) : DeltaEncoder :=
  match e.pending.bind (·.merge? c) with
  | some merged => { e with pending := some merged }
  | none => { e.releaseCopy with pending := some c }

/-- The run is inserted, behind the copy that was held back. -/
def releaseRun (e : DeltaEncoder) : DeltaEncoder :=
  if e.run = 0 then e
  else
    let e := e.releaseCopy
    let run := slice e.buffer 0 e.run
    { e with buffer := e.buffer.extract e.run e.buffer.size, run := 0 }.issue (.insert run)

/-! ## Moving the window -/

/-- The bytes from the front of the window on. -/
def window (e : DeltaEncoder) : Bytes := slice e.buffer e.run (e.buffer.size - e.run)

/-- The window is a block of the basis. -/
def takeBlock (e : DeltaEncoder) (b : BlockSum) : DeltaEncoder :=
  let length := UInt32.ofNat (e.buffer.size - e.run)
  let offset := b.index.toUInt64 * e.index.blockLength.toUInt64
  let e := e.releaseRun
  { e with buffer := #[], run := 0, last := none }.copy ⟨offset, length⟩

/-- The window moves over one byte, which joins the run. -/
def extendRun (e : DeltaEncoder) : DeltaEncoder :=
  let e := { e with run := e.run + 1 }
  if insertLimit ≤ e.run then e.releaseRun else e

/-- The first byte of the window joins the run. -/
def takeByte (e : DeltaEncoder) (sum : RollingSum) : DeltaEncoder :=
  { e with last := some (sum, e.buffer.getD e.run 0) }.extendRun

/-- A byte of the file arrives. -/
def receive (e : DeltaEncoder) (b : UInt8) : DeltaEncoder :=
  { e with buffer := e.buffer.push b, hasher := e.hasher.push b }

/-- A byte of the file arrives at the back of the window. -/
def absorb (e : DeltaEncoder) (b : UInt8) : DeltaEncoder :=
  let e := e.receive b
  if e.buffer.size - e.run < e.index.blockLength.toNat then e
  else
    let sum := match e.last with
      | some (sum, old) => sum.roll old b
      | none => RollingSum.ofBytes e.window
    if e.index.hasWeak sum.packed then
      match e.index.find? sum.packed e.window with
      | some block => e.takeBlock block
      | none => e.takeByte sum
    else e.takeByte sum

/-! ## A window without length

A signature whose parameters were never checked may have a block length of zero. The window is empty
then and moves over every byte that arrives, and at last over the byte that would come next.
-/

/-- A byte of the file arrives; the window moves over it unless it is past it already. -/
def pass (e : DeltaEncoder) (b : UInt8) : DeltaEncoder :=
  let e := e.receive b
  if e.run < e.buffer.size then e.extendRun else e

/-- The window moves past everything that has arrived. A run that has become long by that cannot be
inserted. -/
def overrun (e : DeltaEncoder) : Except Failure Unit × DeltaEncoder :=
  (if insertLimit ≤ e.run + 1 then .error (.breach .windowPastEnd) else .ok (),
    { e with run := e.run + 1 })

/-- Whether an empty window agrees with a block, which keeps it from ever moving on. -/
def isStuck (e : DeltaEncoder) : Bool := (e.index.find? RollingSum.empty.packed []).isSome

/-! ## Steps -/

/-- Bytes of the file arrive. -/
def takeBytes (e : DeltaEncoder) (bs : Bytes) : Except Failure Unit × DeltaEncoder :=
  if e.index.blockLength ≠ 0 then (.ok (), bs.foldl absorb e)
  else if bs.isEmpty then (.ok (), e)
  else if e.isStuck then (.error .unfinished, e)
  else (bs.foldl pass e).overrun

/-- The file ends: what is left of the window is a short block of the basis, or joins the run. -/
def endFile (e : DeltaEncoder) : Except Failure Unit × DeltaEncoder :=
  if e.buffer.size < e.run then (.error (.breach .windowPastEnd), e)
  else
    let tail := e.window
    let found := if tail.isEmpty then none else e.index.find? (RollingSum.ofBytes tail).packed tail
    let e := match found with
      | some block => e.takeBlock block
      | none => { e with run := e.buffer.size }
    let e := e.releaseRun.releaseCopy
    (.ok (), { e with last := none, finished := true }.issue (.close e.hasher.digest))

/-- Take all input, and the end of the file if nothing follows. -/
def takeInput (e : DeltaEncoder) (input : Queue) : Except Failure Unit × DeltaEncoder × Queue :=
  if e.finished then (.ok (), e, input)
  else
    let (result, e) := e.takeBytes input.content
    let input := input.drop input.length
    match result with
    | .error f => (.error f, e, input)
    | .ok () =>
      if input.atEnd then
        let (result, e) := e.endFile
        (result, e, input)
      else (.ok (), e, input)

/-- What is reported when nothing more can be done. -/
def status (e : DeltaEncoder) : Status :=
  if e.finished && e.backlog.isEmpty then .done else .blocked

/-- A bound on the output that `available` bytes of input lead to: the mark and the closing, and at
most a copy for every byte. -/
def outputBound (available : Nat) : Nat := 37 + 13 * available

/-- One step. -/
def step (s : Bench DeltaEncoder) : Except Failure Status × Bench DeltaEncoder :=
  let ⟨e, input, output⟩ := s
  let (backlog, output) := e.backlog.pour output
  if !backlog.isEmpty then (.ok .blocked, ⟨{ e with backlog := backlog }, input, output⟩)
  else
    let (result, e, input) := { e with backlog := backlog }.takeInput input
    match result with
    | .error f => (.error f, ⟨e, input, output⟩)
    | .ok () =>
      let (backlog, output) := e.backlog.pour output
      let e := { e with backlog := backlog }
      (.ok e.status, ⟨e, input, output⟩)

end DeltaEncoder

instance : Transducer DeltaEncoder where
  step := DeltaEncoder.step

end BlockSync
