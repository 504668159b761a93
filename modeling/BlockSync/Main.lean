import BlockSync.CommandLine.Run

/-!
# The program

What a command names is taken from the file system into a store, the command is run on the store,
and the file that it writes goes back.

* `snapshot`: the store of everything that a command names;
* `main`: one call of the program.
-/

namespace BlockSync.CommandLine

/-- The paths that a command names. -/
def Command.paths (c : Command) : List String :=
  let inputs := match c with
    | .serve file .. | .fetch file .. | .signature file .. => [file]
    | .delta described file .. => [described, file]
    | .patch basis changes .. => [basis, changes]
  inputs ++ c.output.toList

/-- The locations that the components of a path lead to from a location, one after another. -/
def locations : Location → List (List Char) → List Location
  | l, [] => [l]
  | l, name :: names => l :: locations (l.next name) names

/-- The path of a location. -/
def pathOf (l : Location) : String := "/" ++ "/".intercalate l

/-- What is found at a location; what is there and cannot be read is taken for a directory. -/
def lookAt (l : Location) : IO (Option Entry) := do
  try
    return some (.file (← IO.FS.readBinFile (pathOf l)).data)
  catch
    | .noFileOrDirectory .. => return none
    | _ => return some .directory

/-- The store of everything that is found at some paths and on the way to them. -/
def snapshot (paths : List String) : IO FileStore := do
  let names := (Path.components (← IO.currentDir).toString.toList).filter (!·.isEmpty)
  let home : Location := names.map String.ofList
  let mut files : FileStore := ⟨(locations [] names).map (·, .directory), home⟩
  for path in paths do
    let start := if path.startsWith "/" then [] else home
    for l in locations start (Path.components path.toList) do
      if (files.entry? l).isNone && files.entry? l.dropLast == some .directory then
        if let some e ← lookAt l then files := files.put l e
  return files

/-- Put the file that a command has written into the file system. -/
def deliver (c : Command) (before after : FileStore) : IO Unit := do
  if let some output := c.output then
    if let .ok l := after.place output then
      if let some (.file content) := after.entry? l then
        if before.entry? l != some (.file content) then
          IO.FS.writeBinFile (pathOf l) ⟨content⟩

end BlockSync.CommandLine

open BlockSync.CommandLine

/-- One call of the program. -/
def main (words : List String) : IO UInt32 := do
  let outcome ← match Command.ofWords words with
    | .error notice => pure notice.outcome
    | .ok command =>
      let before ← snapshot command.paths
      let (outcome, after) := command.run before
      deliver command before after
      pure outcome
  IO.print outcome.out
  IO.eprint outcome.err
  return outcome.code
