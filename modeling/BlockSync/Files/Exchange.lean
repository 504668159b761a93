import BlockSync.Files.Store
import BlockSync.Exchange

/-!
# Exchanges on files

Each phase of an exchange with files for its streams, on one machine or on both sides of a
connection. All inputs are opened before the output is emptied, and they are read after that: an
output that is one of the inputs is read as an empty file. What was written before a failure stays.

* `Exchange.fileSignature`, `Exchange.fileDelta`, `Exchange.filePatched`: from files to a file;
* `Exchange.offerSignature`, `Exchange.offerDelta`: from a file to a connection;
* `Exchange.acceptSignature`, `Exchange.acceptPatched`: from a connection.
-/

namespace BlockSync.Exchange

variable (x : Exchange) (files : FileStore)

/-- Write the signature of the file `basis` into `output`. -/
def fileSignature (basis output : String) : Except Failure PipeTotals × FileStore :=
  match files.openFile basis with
  | .error f => (.error (TransferError.io f), files)
  | .ok input =>
    match files.create output with
    | .error f => (.error (TransferError.io f), files)
    | .ok (out, emptied) =>
      let (result, sink) :=
        x.writeSignature (files.size input) (RawSource.mk (emptied.reader input)) (RawSink.mk {})
      (result, emptied.write out sink.writer.written)

/-- Write the delta of the file `new` against the signature in `signature` into `output`. -/
def fileDelta (signature new output : String) : Except Failure DeltaTotals × FileStore :=
  match files.openFile signature with
  | .error f => (.error (TransferError.io f), files)
  | .ok described =>
    match x.readSignature (RawSource.mk (files.reader described)) with
    | .error f => (.error f, files)
    | .ok loaded =>
      match files.openFile new with
      | .error f => (.error (TransferError.io f), files)
      | .ok input =>
        match files.create output with
        | .error f => (.error (TransferError.io f), files)
        | .ok (out, emptied) =>
          let (result, sink) := x.writeDelta (.ofSignature loaded)
            (RawSource.mk (emptied.reader input)) (RawSink.mk {})
          (result, emptied.write out sink.writer.written)

/-- Apply the delta in `delta` to the file `basis` and write `output`. -/
def filePatched (basis delta output : String) : Except Failure Nat × FileStore :=
  match files.openFile basis with
  | .error f => (.error (TransferError.io f), files)
  | .ok old =>
    match files.openFile delta with
    | .error f => (.error (TransferError.io f), files)
    | .ok input =>
      match files.create output with
      | .error f => (.error (TransferError.io f), files)
      | .ok (out, emptied) =>
        let (result, sink) := x.writePatched (emptied.basis old)
          (RawSource.mk (emptied.reader input)) (RawSink.mk {})
        (result, emptied.write out sink.writer.written)

/-- Send the signature of the file `basis`. -/
def offerSignature (basis : String) (wire : Writer) : Except Failure PipeTotals × Writer :=
  match files.openFile basis with
  | .error f => (.error (TransferError.io f), wire)
  | .ok input =>
    let (result, sink) := x.writeSignature (files.size input)
      (RawSource.mk (files.reader input)) { writer := wire : FramedSink }
    (result, sink.writer)

/-- Receive a signature and index it. -/
def acceptSignature (wire : Reader) : Except Failure SignatureIndex :=
  (x.readSignature { reader := wire : FramedSource }).map .ofSignature

/-- Send the delta of the file `new` against an indexed signature. -/
def offerDelta (t : SignatureIndex) (new : String) (wire : Writer) :
    Except Failure DeltaTotals × Writer :=
  match files.openFile new with
  | .error f => (.error (TransferError.io f), wire)
  | .ok input =>
    let (result, sink) := x.writeDelta t
      (RawSource.mk (files.reader input)) { writer := wire : FramedSink }
    (result, sink.writer)

/-- Receive a delta, apply it to the file `basis` and write `output`. -/
def acceptPatched (wire : Reader) (basis output : String) : Except Failure Nat × FileStore :=
  match files.openFile basis with
  | .error f => (.error (TransferError.io f), files)
  | .ok old =>
    match files.create output with
    | .error f => (.error (TransferError.io f), files)
    | .ok (out, emptied) =>
      let (result, sink) := x.writePatched (emptied.basis old)
        { reader := wire : FramedSource } (RawSink.mk {})
      (result, emptied.write out sink.writer.written)

end BlockSync.Exchange
