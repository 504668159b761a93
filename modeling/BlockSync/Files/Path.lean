/-!
# Paths

A path is a text of components between slashes.

* `Path.components`: the components, an empty one for every slash too many;
* `Path.replaceExtension`: the path with another extension, or with one;
* `Path.withSuffix`: the path with something appended to its name.
-/

namespace BlockSync.Path

/-- The texts between the slashes of a path. -/
def components : List Char → List (List Char)
  | [] => [[]]
  | c :: cs =>
    match components cs with
    | [] => [[c]]
    | name :: names => if c = '/' then [] :: name :: names else (c :: name) :: names

/-- A path without the slashes and the components "." at its end; both are read from the end. -/
def trimEnd : List Char → List Char
  | '/' :: rest => trimEnd rest
  | '.' :: '/' :: rest => trimEnd rest
  | rest => rest

/-- A name without its extension, which starts at the last dot unless that is where the name starts;
both names are read from the end. -/
def stem (name : List Char) : List Char :=
  match name.dropWhile (· != '.') with
  | [] | ['.'] => name
  | _ :: before => before

/-- The path with `extension` in place of its own. A path without a name stays as it is. -/
def replaceExtension (path extension : String) : String :=
  let trimmed := trimEnd path.toList.reverse
  let name := trimmed.takeWhile (· != '/')
  let directory := trimmed.dropWhile (· != '/')
  if name = [] ∨ name = ['.'] ∨ name = ['.', '.'] then path
  else String.ofList (stem name ++ directory).reverse ++ "." ++ extension

/-- What is appended to the name of a patched file. -/
def newFileSuffix : String := ".new"

/-- The path with something appended to its name. -/
def withSuffix (path suffix : String) : String := path ++ suffix

end BlockSync.Path
