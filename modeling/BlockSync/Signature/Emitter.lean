import BlockSync.Transducer
import BlockSync.Signature.Basic

/-!
# Emitting signatures

The transducer from a file to its signature. The bytes of the file are taken one after another and a
record is written whenever a block is complete, the last block being what is left at the end.

* `SignatureEmitter.start`: the header waits to be written;
* `SignatureEmitter.absorb`, `SignatureEmitter.endFile`: one byte arrives, or the file ends;
* `SignatureEmitter.step`: no input is taken while output waits.
-/

namespace BlockSync

/-- The state of writing a signature. -/
structure SignatureEmitter where
  params : Params
  /-- The part of the current block that has arrived. -/
  block : Array UInt8
  /-- The number of blocks that are written. -/
  blocks : UInt32
  backlog : Backlog
  /-- The last block is written. -/
  finished : Bool

namespace SignatureEmitter

/-- A signature with valid parameters. -/
def start (p : Params) : Except TransferError SignatureEmitter := do
  p.check
  return ⟨p, #[], 0, Backlog.empty.append p.header, false⟩

/-- Write the record of the current block. The count stops at its largest value. -/
def closeBlock (e : SignatureEmitter) : SignatureEmitter :=
  let record := (BlockSum.ofBytes e.blocks e.block.toList e.params.strongLength).record
    e.params.strongLength
  { e with
    block := #[]
    blocks := if e.blocks = 0xFFFFFFFF then e.blocks else e.blocks + 1
    backlog := e.backlog.append record }

/-- A byte of the file arrives. -/
def absorb (e : SignatureEmitter) (b : UInt8) : SignatureEmitter :=
  let e := { e with block := e.block.push b }
  if e.block.size = e.params.blockLength.toNat then e.closeBlock else e

/-- The file ends. -/
def endFile (e : SignatureEmitter) : SignatureEmitter :=
  if e.finished then e
  else
    let e := if e.block.isEmpty then e else e.closeBlock
    { e with finished := true }

/-- What is reported when nothing more can be done. -/
def status (e : SignatureEmitter) : Status :=
  if e.finished && e.backlog.isEmpty then .done else .blocked

/-- A bound on the output that `available` bytes of input lead to. -/
def outputBound (available : Nat) : Nat :=
  signatureHeaderLength + (4 + digestLength) * (available + 1)

/-- One step. -/
def step (s : Bench SignatureEmitter) : Bench SignatureEmitter :=
  let ⟨e, input, output⟩ := s
  let (backlog, output) := e.backlog.pour output
  if !backlog.isEmpty then ⟨{ e with backlog := backlog }, input, output⟩
  else
    let e := input.content.foldl absorb { e with backlog := backlog }
    let input := input.drop input.length
    let e := if input.atEnd then e.endFile else e
    let (backlog, output) := e.backlog.pour output
    ⟨{ e with backlog := backlog }, input, output⟩

end SignatureEmitter

instance : Transducer SignatureEmitter where
  step s :=
    let s := SignatureEmitter.step s
    (.ok s.state.status, s)

end BlockSync
