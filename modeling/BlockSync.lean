import BlockSync.Main
import BlockSync.Proofs.Delta.Matching
import BlockSync.Proofs.Endian
import BlockSync.Proofs.RollingSum
import BlockSync.Proofs.Schedule
import BlockSync.Proofs.Delta.Encoder
import BlockSync.Proofs.Queue
import BlockSync.Proofs.Delta.Encoding
import BlockSync.Proofs.Signature.Params
import BlockSync.Proofs.Stream.Flow
import BlockSync.Proofs.Stream.Sinks
import BlockSync.Proofs.Stream.Frames
import BlockSync.Proofs.Stream.RoundTrip
import BlockSync.Proofs.Pipe
import BlockSync.Proofs.Stream.Link
import BlockSync.Proofs.Delta.Reading
import BlockSync.Proofs.Basis
import BlockSync.Proofs.Delta.Moves
import BlockSync.Proofs.Delta.Patching
import BlockSync.Proofs.Delta.Acceptance
import BlockSync.Proofs.Delta.Meaning
import BlockSync.Proofs.Exchange.Delta
import BlockSync.Proofs.Signature.Blocks
import BlockSync.Proofs.Signature.Format
import BlockSync.Proofs.Signature.Emitting
import BlockSync.Proofs.Signature.Loading
import BlockSync.Proofs.Signature.Acceptance
import BlockSync.Proofs.Exchange.Signature
import BlockSync.Proofs.Exchange.Whole
import BlockSync.Proofs.Orderly
import BlockSync.Proofs.Pipe.Finite
import BlockSync.Proofs.Pipe.Log
import BlockSync.Proofs.Pipe.Alike
import BlockSync.Proofs.Stream.Cut
import BlockSync.Proofs.Pipe.Broken
import BlockSync.Proofs.Exchange.Truncation
import BlockSync.Proofs.Machine.Word
import BlockSync.Proofs.Machine.Buffer
import BlockSync.Proofs.Machine.Checksum
import BlockSync.Proofs.Machine.Engine
import BlockSync.Proofs.Machine.Ends
import BlockSync.Proofs.Machine.Loader
import BlockSync.Proofs.Machine.Patcher
import BlockSync.Proofs.Delta.Books
import BlockSync.Proofs.Machine.Issuer
import BlockSync.Proofs.Machine.Scanner
import BlockSync.Proofs.Machine.Encoder
import BlockSync.Proofs.Exchange.Machine
import BlockSync.Proofs.Pipe.Termination
import BlockSync.Proofs.Footprint
import BlockSync.Proofs.Pipe.Reads
import BlockSync.Proofs.Pipe.NoSink
import BlockSync.Proofs.Files.Exchange
import BlockSync.Proofs.Files.Path
import BlockSync.Proofs.CommandLine.Outputs
import BlockSync.Proofs.Delta.NormalForm
import BlockSync.Proofs.Delta.Completeness
import BlockSync.Proofs.Exchange.Instructions
import BlockSync.Proofs.Stream.Faults
import BlockSync.Proofs.Retrying
import BlockSync.Proofs.Delta.Accounts
import BlockSync.Proofs.Delta.Faults
import BlockSync.Proofs.Delta.Resumption
import BlockSync.Proofs.Machine.Sliding
import BlockSync.Proofs.Machine.Table
import BlockSync.Proofs.Delta.Sizes
import BlockSync.Proofs.Delta.Runs
import BlockSync.Proofs.Pipe.Metered
import BlockSync.Proofs.Exchange.Sizes
import BlockSync.Proofs.Machine.Params
import BlockSync.Proofs.Exchange.Settings
import BlockSync.Proofs.Stream.Codec
import BlockSync.Proofs.Queue.Fifo
import BlockSync.Proofs.Afterwards
import BlockSync.Proofs.Signature.Afterwards
import BlockSync.Proofs.Delta.Afterwards
import BlockSync.Proofs.Queue.Staging
import BlockSync.Proofs.Exchange.Unread
import BlockSync.Proofs.Files.Tasks
