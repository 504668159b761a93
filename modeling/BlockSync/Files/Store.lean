import BlockSync.Basis
import BlockSync.Files.Path
import BlockSync.Stream.Reader

/-!
# File stores

A store holds files and directories by their locations. Paths are followed from the working
directory, or from the root if they start with a slash. A location is reached by its names only,
since there are no links. There are no permissions either, and no device is full: whatever is there can
be opened, and a file that has been made takes all that is written to it.

* `FileStore.follow`: the location that the components of a path lead to, by way of directories only
  and by names that are not too long;
* `FileStore.find`, `FileStore.place`: the location of what is there, and of a file to be made. A
  slash behind a name makes it that of a directory, so that no file can be made under it;
* `FileStore.openFile`, `FileStore.create`, `FileStore.write`: a file is looked up, made empty, and
  given its content;
* `FileStore.reader`, `FileStore.basis`: what is in a file, read in order or at any position. Of a
  directory that is open the end is told, but nothing can be read.
-/

namespace BlockSync

/-- The names that lead from the root to a place in a store. -/
abbrev Location := List String

/-- The location that a component of a path leads to from another one. -/
def Location.next (l : Location) (name : List Char) : Location :=
  if name = [] ∨ name = ['.'] then l
  else if name = ['.', '.'] then l.dropLast
  else l ++ [String.ofList name]

/-- What is at a location. -/
inductive Entry where
  | file (content : Array UInt8)
  | directory
deriving DecidableEq, Repr, Inhabited

/-- Files and directories by their locations. There are no links among them and no permissions, and no
write fails. -/
structure FileStore where
  entries : List (Location × Entry)
  /-- The working directory. -/
  home : Location
deriving Inhabited

/-- There is nothing at a path. -/
def Fault.notFound : Fault := ⟨.notFound, "No such file or directory (os error 2)"⟩

/-- A path leads through something that is not a directory. -/
def Fault.notADirectory : Fault := ⟨.notADirectory, "Not a directory (os error 20)"⟩

/-- A directory was to be used as a file. -/
def Fault.isADirectory : Fault := ⟨.isADirectory, "Is a directory (os error 21)"⟩

/-- A path, or a name in it, is too long. -/
def Fault.nameTooLong : Fault := ⟨.invalidName, "File name too long (os error 36)"⟩

/-- A path contains the character that ends one. -/
def Fault.zeroInPath : Fault :=
  ⟨.invalidRequest, "file name contained an unexpected NUL byte"⟩

/-- How many bytes the name of a file or directory can have. -/
def nameLimit : Nat := 255

/-- How many bytes a path can have. -/
def pathLimit : Nat := 4095

namespace FileStore

/-- What is at a location; the root is a directory. -/
def entry? (s : FileStore) (l : Location) : Option Entry :=
  if l = [] then some .directory else s.entries.lookup l

/-- Put something at a location. -/
def put (s : FileStore) (l : Location) (e : Entry) : FileStore :=
  { s with entries := (l, e) :: s.entries.filter (·.1 != l) }

/-- What is wrong with a component of a path that others come after, to make a file or not. -/
def nameFault? (making : Bool) (name : List Char) (names : List (List Char)) : Option Fault :=
  if name = [] ∨ name = ['.'] ∨ name = ['.', '.'] then none
  else if making && !names.isEmpty && names.all List.isEmpty then some .isADirectory
  else if nameLimit < (String.ofList name).utf8ByteSize then some .nameTooLong
  else none

/-- Follow the components of a path from a location on, to make a file there or not. -/
def follow (s : FileStore) (making : Bool) :
    Location → List (List Char) → Except Fault Location
  | l, [] => .ok l
  | l, name :: names =>
    match s.entry? l with
    | none => .error .notFound
    | some (.file _) => .error .notADirectory
    | some .directory =>
      match nameFault? making name names with
      | some fault => .error fault
      | none => follow s making (l.next name) names

/-- The location that a path leads to, to make a file there or not. -/
def resolve (s : FileStore) (making : Bool) (path : String) : Except Fault Location :=
  if path.toList.contains '\x00' then .error .zeroInPath
  else if pathLimit < path.utf8ByteSize then .error .nameTooLong
  else
    match path.toList with
    | [] => .error .notFound
    | '/' :: cs => s.follow making [] (Path.components cs)
    | cs => s.follow making s.home (Path.components cs)

/-- The location that a path leads to, whether something is there or not. -/
def find (s : FileStore) (path : String) : Except Fault Location := s.resolve false path

/-- The location of a file that is to be made. -/
def place (s : FileStore) (path : String) : Except Fault Location := s.resolve true path

/-- The location of a file or directory that is to be read. -/
def openFile (s : FileStore) (path : String) : Except Fault Location := do
  let l ← s.find path
  match s.entry? l with
  | some _ => return l
  | none => throw .notFound

/-- Make a file empty, or make an empty file. -/
def create (s : FileStore) (path : String) : Except Fault (Location × FileStore) := do
  let l ← s.place path
  match s.entry? l with
  | some .directory => throw .isADirectory
  | _ => return (l, s.put l (.file #[]))

/-- Give a file its content. -/
def write (s : FileStore) (l : Location) (content : Array UInt8) : FileStore :=
  s.put l (.file content)

/-- Whether a path leads to a file. -/
def isFile (s : FileStore) (path : String) : Bool :=
  match (s.find path).toOption.bind s.entry? with
  | some (.file _) => true
  | _ => false

/-- What is in a file; a directory cannot be read. -/
def content (s : FileStore) (l : Location) : Except Fault (Array UInt8) :=
  match s.entry? l with
  | some (.file content) => .ok content
  | some .directory => .error .isADirectory
  | none => .error .notFound

/-- The size of a file; that of a directory does not matter. -/
def size (s : FileStore) (l : Location) : Nat :=
  match s.content l with
  | .ok content => content.size
  | .error _ => 0

/-- A file, read in order. -/
def reader (s : FileStore) (l : Location) : Reader :=
  match s.content l with
  | .ok content => .ofBytes content.toList
  | .error fault => ⟨[.fault fault]⟩

/-- Where a directory that is open is said to end. File systems differ; some that keep no order in their
directories know no other end than the greatest offset. -/
def directoryEnd : Nat := 0x7FFFFFFFFFFFFFFF

/-- Where a file or directory that is open ends. -/
def extent (s : FileStore) (l : Location) : Except Fault Nat :=
  match s.entry? l with
  | some (.file content) => .ok content.size
  | some .directory => .ok directoryEnd
  | none => .error .notFound

end FileStore

/-- A file or directory, read at any position. -/
structure FileBasis where
  extent : Except Fault Nat
  stored : Except Fault StoredBasis

instance : Basis FileBasis where
  size b := (b.extent, b)
  readAt b offset count := (b.stored.bind (·.read offset count), b)

/-- A file or directory, read at any position. -/
def FileStore.basis (s : FileStore) (l : Location) : FileBasis := ⟨s.extent l, (s.content l).map .mk⟩

end BlockSync
