/-!
# Words of a command line

The words of a command line are options, values of options, and operands.

* `OptionSpec`: an option with its long and its short name;
* `Word.ofText`: what a word looks like;
* `scan`: the options and operands among the words, of which the first that is not understood, or
  that asks for something else, ends the scan. Each option stands at most once, a value does not
  look like an option, and after the word "--" all words are operands.
-/

namespace BlockSync.CommandLine

/-- What is said when the words of a command line are not followed. -/
inductive Notice where
  /-- They are not understood. -/
  | usage
  /-- They ask for help. -/
  | help
  /-- They ask for the version. -/
  | version
deriving DecidableEq, Repr

/-- What an option is for. -/
inductive OptionKind where
  /-- It is there or not. -/
  | flag
  /-- It has a value. -/
  | valued
  /-- It asks for something instead. -/
  | notice (notice : Notice)
deriving DecidableEq, Repr

/-- An option. -/
structure OptionSpec where
  /-- The name that stands after two dashes. -/
  long : String
  /-- The letter that stands after one dash. -/
  short : Option Char := none
  kind : OptionKind := .valued
  /-- Which values are understood. -/
  accepts : String → Bool := fun _ => true

/-- What may stand among the words. -/
structure Expected where
  options : List OptionSpec
  /-- How many operands there may be, unless the first one ends the scan. -/
  operands : Option Nat

/-- The options and operands found so far. -/
structure Matches where
  /-- The long names of the options with their values. -/
  options : List (String × String) := []
  operands : List String := []
deriving Repr, Inhabited

/-- What a word looks like. -/
inductive Word where
  | operand
  /-- The word "--". -/
  | escape
  /-- A long name, and what is attached to it. -/
  | long (name : String) (attached : Option String)
  /-- Letters, and perhaps a value attached to the last one. -/
  | short (letters : List Char)
deriving Repr

/-- What a word looks like. A single dash is an operand. -/
def Word.ofText (text : String) : Word :=
  match text.toList with
  | ['-', '-'] => .escape
  | '-' :: '-' :: cs =>
    let name := String.ofList (cs.takeWhile (· != '='))
    match cs.dropWhile (· != '=') with
    | [] => .long name none
    | _ :: attached => .long name (some (String.ofList attached))
  | '-' :: c :: cs => .short (c :: cs)
  | _ => .operand

/-- Whether a word can be the value of the option before it. -/
def Word.isOperand : Word → Bool
  | operand => true
  | _ => false

namespace Matches

/-- The value of an option. -/
def value? (m : Matches) (long : String) : Option String := m.options.lookup long

/-- Whether an option is there. -/
def has (m : Matches) (long : String) : Bool := (m.value? long).isSome

/-- One option more; it must not stand there already, and its value must be understood. -/
def add (m : Matches) (o : OptionSpec) (value : String) : Except Notice Matches :=
  if m.has o.long || !o.accepts value then .error .usage
  else .ok { m with options := m.options ++ [(o.long, value)] }

/-- One operand more, which is not empty; there may be at most `limit`. -/
def addOperand (limit : Nat) (m : Matches) (text : String) : Except Notice Matches :=
  if text.isEmpty || limit ≤ m.operands.length then .error .usage
  else .ok { m with operands := m.operands ++ [text] }

end Matches

/-- The options that the letters of a word stand for, and the one that still needs its value. -/
def scanLetters (specs : List OptionSpec) (m : Matches) :
    List Char → Except Notice (Matches × Option OptionSpec)
  | [] => .ok (m, none)
  | c :: cs =>
    match specs.find? (·.short == some c) with
    | none => .error .usage
    | some o =>
      match o.kind, cs with
      | .notice notice, _ => .error notice
      | .flag, cs => do scanLetters specs (← m.add o "") cs
      | .valued, [] => .ok (m, some o)
      | .valued, '=' :: value => return (← m.add o (String.ofList value), none)
      | .valued, value => return (← m.add o (String.ofList value), none)

/-- The option that a long name stands for, if it still needs its value. -/
def scanLong (specs : List OptionSpec) (m : Matches) (name : String) (attached : Option String) :
    Except Notice (Matches × Option OptionSpec) :=
  match specs.find? (·.long == name) with
  | none => .error .usage
  | some o =>
    match o.kind, attached with
    | .notice notice, none => .error notice
    | .flag, none => return (← m.add o "", none)
    | .valued, none => .ok (m, some o)
    | .valued, some value => return (← m.add o value, none)
    | _, some _ => .error .usage

/-- What a word that is not an operand adds, and the option that still needs its value. -/
def scanOption (specs : List OptionSpec) (m : Matches) :
    Word → Except Notice (Matches × Option OptionSpec)
  | .operand | .escape => .ok (m, none)
  | .long name attached => scanLong specs m name attached
  | .short letters => scanLetters specs m letters

/-- The options and operands among the words, and what is left over of them. -/
def scan (x : Expected) (m : Matches) : List String → Except Notice (Matches × List String)
  | [] => .ok (m, [])
  | text :: rest =>
    match Word.ofText text, x.operands with
    | .operand, none => .ok (m, text :: rest)
    | .operand, some limit => do scan x (← m.addOperand limit text) rest
    | .escape, none => .error .usage
    | .escape, some limit => return (← rest.foldlM (Matches.addOperand limit) m, [])
    | word, _ =>
      match scanOption x.options m word, rest with
      | .error notice, _ => .error notice
      | .ok (m, none), rest => scan x m rest
      | .ok (_, some _), [] => .error .usage
      | .ok (m, some o), value :: rest =>
        if (Word.ofText value).isOperand then do scan x (← m.add o value) rest
        else .error .usage

end BlockSync.CommandLine
