import BlockSync.CommandLine.Words
import BlockSync.Connection
import BlockSync.Files.Path
import BlockSync.Exchange

/-!
# Commands

The commands that a command line can ask for.

* `Command`: what is to be done;
* `Command.ofWords`: the command in the words of a command line.
-/

namespace BlockSync.CommandLine

/-! ## What can be asked for -/

/-- Settings that every command takes. -/
structure TransferOptions where
  capacity : Nat := framePayloadLimit
  blockLength : Option UInt32 := none
  strongLength : Option UInt32 := none
  /-- How many seconds a read or write on a connection may take. -/
  timeout : Option Nat := none
deriving DecidableEq, Repr, Inhabited

/-- What is to be done. -/
inductive Command where
  /-- Wait for a peer and send it the delta of a file. -/
  | serve (file bind : String) (port : Nat) (options : TransferOptions)
  /-- Ask a peer for the delta of a file and patch it. -/
  | fetch (file host : String) (port : Nat) (suffix : String) (verify : Bool)
      (options : TransferOptions)
  /-- Write a signature. -/
  | signature (basis : String) (output : Option String) (options : TransferOptions)
  /-- Write a delta. -/
  | delta (signature file : String) (output : Option String) (options : TransferOptions)
  /-- Apply a delta. -/
  | patch (basis delta : String) (output : Option String) (verify : Bool)
      (options : TransferOptions)
deriving DecidableEq, Repr

/-! ## Values of options -/

/-- The number that decimal digits write, of which there is at least one. -/
def digits? (cs : List Char) : Option Nat :=
  if cs = [] ∨ !cs.all Char.isDigit then none
  else some (cs.foldl (fun n c => 10 * n + (c.toNat - '0'.toNat)) 0)

/-- A number below `bound`, perhaps after a plus sign. -/
def unsigned? (bound : Nat) (text : String) : Option Nat :=
  let n := match text.toList with
    | '+' :: cs => digits? cs
    | cs => digits? cs
  n.filter (· < bound)

/-- A number below `bound`, perhaps after a sign; so zero may be written with a minus. -/
def signed? (bound : Nat) (text : String) : Option Nat :=
  match text.toList with
  | '-' :: cs => (digits? cs).filter (· = 0)
  | _ => unsigned? bound text

/-- The value of an option, if it is there. -/
def Matches.get {α : Type} (m : Matches) (long : String) (read : String → Option α) : Option α :=
  (m.value? long).bind read

/-! ## Options -/

/-- An option whose values are understood if they can be read. -/
def OptionSpec.reading {α : Type} (long : String) (short : Option Char)
    (read : String → Option α) : OptionSpec :=
  ⟨long, short, .valued, fun text => (read text).isSome⟩

/-- Options that may stand anywhere. -/
def globalOptions : List OptionSpec :=
  [{ long := "verbose", short := some 'v', kind := .flag },
    { long := "help", short := some 'h', kind := .notice .help }]

/-- Options before the name of a command. -/
def leadingOptions : List OptionSpec :=
  { long := "version", short := some 'V', kind := .notice .version } :: globalOptions

/-- A capacity or a time. -/
def large? : String → Option Nat := unsigned? UInt64.size

/-- A block length or a strong length. -/
def length? (text : String) : Option UInt32 := (signed? UInt32.size text).map .ofNat

/-- A port. -/
def port? : String → Option Nat := signed? UInt16.size

/-- Options after the name of any command. -/
def commonOptions : List OptionSpec :=
  [.reading "capacity" none large?, .reading "block-len" none length?,
    .reading "strong-len" none length?, .reading "timeout" none large?] ++ globalOptions

/-- The option for the name of an output, which is not empty. -/
def outputOption : OptionSpec :=
  { long := "output", short := some 'o', accepts := fun text => !text.isEmpty }

/-- The option for the port of a connection. -/
def portOption : OptionSpec := .reading "port" (some 'p') port?

/-- The option for leaving out the comparison of digests. -/
def noVerifyOption : OptionSpec := { long := "no-verify", kind := .flag }

/-- The settings that every command takes. -/
def TransferOptions.ofMatches (m : Matches) : TransferOptions where
  capacity := (m.get "capacity" large?).getD framePayloadLimit
  blockLength := m.get "block-len" length?
  strongLength := m.get "strong-len" length?
  timeout := m.get "timeout" large?

/-! ## Commands -/

/-- The words after the name of a command, with its own options and the number of its operands. -/
def scanCommand (own : List OptionSpec) (operands : Nat) (words : List String) :
    Except Notice Matches := do
  let (m, _) ← scan ⟨own ++ commonOptions, some operands⟩ {} words
  return m

/-- The command "serve". -/
def serveOf (words : List String) : Except Notice Command := do
  let m ← scanCommand [{ long := "bind" }, portOption] 1 words
  let bind := (m.value? "bind").getD "0.0.0.0"
  let port := (m.get "port" port?).getD standardPort.toNat
  match m.operands with
  | [file] => return .serve file bind port (.ofMatches m)
  | _ => throw .usage

/-- The command "fetch". -/
def fetchOf (words : List String) : Except Notice Command := do
  let m ← scanCommand [{ long := "host" }, { long := "suffix" }, portOption, noVerifyOption] 1 words
  let host := (m.value? "host").getD "127.0.0.1"
  let port := (m.get "port" port?).getD standardPort.toNat
  let suffix := (m.value? "suffix").getD Path.newFileSuffix
  match m.operands with
  | [file] => return .fetch file host port suffix (!m.has "no-verify") (.ofMatches m)
  | _ => throw .usage

/-- The command "signature". -/
def signatureOf (words : List String) : Except Notice Command := do
  let m ← scanCommand [outputOption] 1 words
  match m.operands with
  | [basis] => return .signature basis (m.value? "output") (.ofMatches m)
  | _ => throw .usage

/-- The command "delta". -/
def deltaOf (words : List String) : Except Notice Command := do
  let m ← scanCommand [outputOption] 2 words
  match m.operands with
  | [described, file] => return .delta described file (m.value? "output") (.ofMatches m)
  | _ => throw .usage

/-- The command "patch". -/
def patchOf (words : List String) : Except Notice Command := do
  let m ← scanCommand [outputOption, noVerifyOption] 2 words
  let verify := !m.has "no-verify"
  match m.operands with
  | [basis, changes] => return .patch basis changes (m.value? "output") verify (.ofMatches m)
  | _ => throw .usage

/-- The command "help": what can be asked for is one command. -/
def helpOf : List String → Except Notice Command
  | [] | ["serve"] | ["fetch"] | ["signature"] | ["delta"] | ["patch"] | ["help"] => throw .help
  | _ => throw .usage

/-- The command that a name and the words after it ask for. -/
def Command.ofName (name : String) (words : List String) : Except Notice Command :=
  match name with
  | "serve" => serveOf words
  | "fetch" => fetchOf words
  | "signature" => signatureOf words
  | "delta" => deltaOf words
  | "patch" => patchOf words
  | "help" => helpOf words
  | _ => .error .usage

/-- The command in the words of a command line. -/
def Command.ofWords (words : List String) : Except Notice Command := do
  match ← scan ⟨leadingOptions, none⟩ {} words with
  | (_, name :: rest) => Command.ofName name rest
  | (_, []) => throw .usage

end BlockSync.CommandLine
