import LetPoly.Files
import LetPoly.Text.Digit

/-!
# Command line

The options of the program.  An option may be shortened as long as one option only begins
like it.  Two dashes end the options.  Unknown options and surplus files are held against
the command line only at its end, so a request for help before that is granted.  A file is
opened as soon as it is met, so one that cannot be opened ends the reading there.
-/

namespace LetPoly
namespace CommandLine

/-- Where the records of a run go. -/
inductive LogTarget where
  /-- Nowhere. -/
  | off
  /-- To the end of a file. -/
  | file (path : String)
  /-- To a file that was left without a name. -/
  | nameless
deriving DecidableEq, Inhabited

/-- The target with the given name.  Two dashes name nothing. -/
def LogTarget.ofName (name : String) : LogTarget :=
  if name = "--" then nameless else file name

/-- The options and the file of a command line. -/
structure Options where
  /-- The file to run; without one the standard input is run. -/
  file : Option String
  /-- Whether the steps of the run are written to the error output. -/
  verbose : Bool
  /-- Whether constraints, substitution and unnamed type are printed as well. -/
  showConstraints : Bool
  /-- Where the records of the run go. -/
  log : LogTarget
deriving DecidableEq, Inhabited

/-- What a command line asks for. -/
inductive Request where
  /-- To run a program. -/
  | run (options : Options)
  /-- To explain the command line. -/
  | help
  /-- Nothing that makes sense. -/
  | invalid
  /-- To run a file that cannot be opened. -/
  | unopened (error : FileError)
deriving DecidableEq

/-- A known option. -/
inductive Flag where
  | help
  | verbose
  | showConstraints
  | logFile
deriving DecidableEq

/-- The spellings of the known options. -/
def spellings : List (String × Flag) :=
  [("-h", .help), ("--help", .help), ("--verbose", .verbose),
    ("--show-constraints", .showConstraints), ("--log-file", .logFile)]

/-- An argument by its looks. -/
inductive Argument where
  /-- A known option, with the value that is attached to it. -/
  | option (flag : Flag) (attached : Option String)
  /-- A known option of one letter with further letters attached. -/
  | letters (flag : Flag) (attached : List Char)
  /-- An option that is not known. -/
  | unknown
  /-- The two dashes that end the options. -/
  | divider
  /-- A file. -/
  | positional (text : String)
deriving DecidableEq

/-- The text before and after the first equals sign. -/
def splitAtEquals (text : List Char) : List Char × Option String :=
  match text.span (fun c => c != '=') with
  | (before, _ :: after) => (before, some (String.ofList after))
  | (before, []) => (before, none)

/-- Characters without the line feed that they may end with. -/
def withoutFinalNewline (text : List Char) : List Char :=
  if text.getLast? = some '\n' then text.dropLast else text

/-- Whether a text is a negative number: digits, or digits around a point.  A line may end
behind it. -/
def isNegativeNumber (text : List Char) : Bool :=
  match withoutFinalNewline text with
  | '-' :: rest =>
      match rest.span Text.isDecimalDigit with
      | (whole, []) => !whole.isEmpty
      | (_, '.' :: fraction) => !fraction.isEmpty && fraction.all Text.isDecimalDigit
      | _ => false
  | _ => false

/-- The known options that a shortened option may stand for. -/
def completions (shortened : List Char) : List Flag :=
  spellings.filterMap fun (spelling, flag) =>
    if shortened.isPrefixOf spelling.toList then some flag else none

/-- Sorts an argument by its looks; an option that could be several is refused. -/
def classify (argument : String) : Option Argument :=
  let plain := some (Argument.positional argument)
  match argument.toList with
  | '-' :: c :: rest =>
      match spellings.lookup argument with
      | some flag => some (.option flag none)
      | none =>
          let (before, attached) := splitAtEquals ('-' :: c :: rest)
          match attached, spellings.lookup (String.ofList before) with
          | some value, some flag =>
              some (if c = '-' then .option flag (some value) else .letters flag value.toList)
          | _, _ =>
              if c = '-' then
                match completions before with
                | [flag] => some (.option flag attached)
                | [] => some (if argument.contains ' ' then .positional argument else .unknown)
                | _ => none
              else if c = 'h' then some (.letters .help rest)
              else if isNegativeNumber ('-' :: c :: rest) || argument.contains ' ' then plain
              else some .unknown
  | _ => plain

/-- Sorts all arguments; those behind the first two dashes are files. -/
def classifyAll : List String → Option (List Argument)
  | [] => some []
  | argument :: rest =>
      if argument = "--" then some (.divider :: rest.map .positional)
      else do
        let first ← classify argument
        let others ← classifyAll rest
        return first :: others

/-- Goes through sorted arguments, given what keeps files from being opened; the flag says
that something was unknown or surplus.  The divider goes with the file, before or behind
it, and is surplus once the file is settled. -/
def interpret (problem? : String → Option FileProblem) (options : Options) (surplus : Bool) :
    List Argument → Request
  | [] => if surplus then .invalid else .run options
  | .positional file :: rest =>
      match options.file with
      | some _ => interpret problem? options true rest
      | none =>
          match problem? file with
          | some problem => .unopened { problem := problem, path := file }
          | none =>
              match rest with
              | .divider :: rest =>
                  interpret problem? { options with file := some file } surplus rest
              | rest => interpret problem? { options with file := some file } surplus rest
  | .divider :: rest => interpret problem? options (surplus || options.file.isSome) rest
  | .unknown :: rest => interpret problem? options true rest
  | .option .help none :: _ => .help
  | .option .verbose none :: rest =>
      interpret problem? { options with verbose := true } surplus rest
  | .option .showConstraints none :: rest =>
      interpret problem? { options with showConstraints := true } surplus rest
  | .option .logFile (some path) :: rest =>
      interpret problem? { options with log := .ofName path } surplus rest
  | .option .logFile none :: .positional path :: rest =>
      interpret problem? { options with log := .ofName path } surplus rest
  | .option _ _ :: _ => .invalid
  | .letters _ attached :: _ =>
      if !attached.isEmpty && attached.all (· = 'h') then .help else .invalid

/-- What a command line asks for, given what keeps files from being opened. -/
def parse (problem? : String → Option FileProblem) (arguments : List String) : Request :=
  match classifyAll arguments with
  | none => .invalid
  | some sorted =>
      interpret problem?
        { file := none, verbose := false, showConstraints := false, log := .off }
        false sorted

end CommandLine
end LetPoly
