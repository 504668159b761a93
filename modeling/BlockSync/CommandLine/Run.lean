import BlockSync.CommandLine.Command
import BlockSync.Files.Exchange
import BlockSync.FixedPlaces

/-!
# Running commands

A command is run on a store of files; it ends with an exit code and what it has to say. A failure
names the step that failed and its cause.

* `Command.output`: the file that a command writes, if none is asked for;
* `Command.run`: what a command does to the files, and what it says;
* `runWords`: the same for the words of a command line.
-/

namespace BlockSync.CommandLine

/-- How a command ends. -/
structure Outcome where
  code : UInt32
  /-- What is printed on success. -/
  out : String := ""
  /-- What is printed on failure. -/
  err : String := ""
deriving DecidableEq, Repr, Inhabited

/-- A step has failed. -/
def failed (step : String) (f : Failure) : Outcome :=
  { code := 1, err := s!"Error: {step}: {f.message}\n" }

/-- All went well. -/
def succeeded (line : String) : Outcome := { code := 0, out := line ++ "\n" }

/-- The exchange that the options of a command describe. -/
def TransferOptions.exchange (o : TransferOptions) (verify : Bool) :
    Except TransferError Exchange :=
  Exchange.ofSettings ⟨o.capacity, o.blockLength, o.strongLength, verify⟩

/-- A share as a percentage with one place. -/
def percentage (share : Float) : String := toFixed 1 (share * 100.0) ++ "%"

/-- The file that a command writes. -/
def Command.output : Command → Option String
  | .serve .. => none
  | .fetch file _ _ suffix _ _ => some (Path.withSuffix file suffix)
  | .signature basis output _ => some (output.getD (Path.replaceExtension basis "sig"))
  | .delta _ file output _ => some (output.getD (Path.replaceExtension file "delta"))
  | .patch basis _ output _ _ => some (output.getD (Path.withSuffix basis Path.newFileSuffix))

/-- A command that needs a peer gets as far as it can without one. -/
def meetPeer (file step : String) (files : FileStore) : Outcome :=
  if files.isFile file then
    failed step (TransferError.io ⟨.other, "no connection can be made here"⟩)
  else failed "open file" (TransferError.argument (.notAFile file))

/-- What a command does to the files, and what it says. -/
def Command.run (c : Command) (files : FileStore) : Outcome × FileStore :=
  let output := c.output.getD ""
  match c with
  | .serve file _ _ options =>
    match options.exchange true with
    | .error e => (failed "configure" e, files)
    | .ok _ => (meetPeer file "bind" files, files)
  | .fetch file _ _ _ verify options =>
    match options.exchange verify with
    | .error e => (failed "configure" e, files)
    | .ok _ => (meetPeer file "connect" files, files)
  | .signature basis _ options =>
    match options.exchange true with
    | .error e => (failed "configure" e, files)
    | .ok exchange =>
      match exchange.fileSignature files basis output with
      | (.error f, files) => (failed "generate signature" f, files)
      | (.ok totals, files) =>
        (succeeded s!"Generated signature: {output} ({totals.pushed} bytes)", files)
  | .delta described file _ options =>
    match options.exchange true with
    | .error e => (failed "configure" e, files)
    | .ok exchange =>
      match exchange.fileDelta files described file output with
      | (.error f, files) => (failed "compute delta" f, files)
      | (.ok totals, files) =>
        let reused := percentage totals.reuse
        let counts := s!"{totals.copied} copied, {totals.inserted} literal"
        (succeeded s!"Generated delta: {output} ({counts}, {reused} reused)", files)
  | .patch basis changes _ verify options =>
    match options.exchange verify with
    | .error e => (failed "configure" e, files)
    | .ok exchange =>
      match exchange.filePatched files basis changes output with
      | (.error f, files) => (failed "apply patch" f, files)
      | (.ok written, files) => (succeeded s!"Patched: {output} ({written} bytes)", files)

/-- How the program is called. -/
def usageText : String :=
  "Usage: deltastream [-v] <serve|fetch|signature|delta|patch> <FILE>... [OPTIONS]\n"

/-- What is said instead when the words of a command line are not followed. -/
def Notice.outcome : Notice → Outcome
  | .usage => { code := 2, err := usageText }
  | .help => { code := 0, out := usageText }
  | .version => succeeded "deltastream 0.1.0"

/-- What the words of a command line do to the files, and what is said. -/
def runWords (words : List String) (files : FileStore) : Outcome × FileStore :=
  match Command.ofWords words with
  | .ok command => command.run files
  | .error notice => (notice.outcome, files)

end BlockSync.CommandLine
