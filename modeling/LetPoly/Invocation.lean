import LetPoly.Batch
import LetPoly.CommandLine

/-!
# What a command line comes to

A command line is carried out in its surroundings: the standard input, which may be a
terminal, and the files.  The program of a file or of the standard input is run as a whole;
a terminal gets a session.
-/

namespace LetPoly

/-- What a run finds around it. -/
structure Surroundings where
  /-- The standard input. -/
  input : String
  /-- Whether the standard input is a terminal. -/
  terminal : Bool
  /-- Whether the input of a terminal ends with an interrupt. -/
  interrupted : Bool
  /-- The files. -/
  files : Files

/-- Why a run does not start. -/
inductive StartError where
  /-- A file cannot be opened. -/
  | file (error : FileError)
  /-- The file for the records has no name. -/
  | namelessLog
deriving DecidableEq

/-- The wording of a start error. -/
def StartError.message : StartError → String
  | file error => error.message
  | namelessLog => "expected str, bytes or os.PathLike object, not list"

/-- What a command line comes to. -/
inductive Invocation (κ : Type) where
  /-- The program ends at once with an exit status. -/
  | exit (status : Nat)
  /-- A run does not start. -/
  | refused (error : StartError)
  /-- A run under some options. -/
  | ran (options : CommandLine.Options) (report : Report κ)

namespace Invocation

open CommandLine

variable {κ : Type}

/-- Opens the place where the records of a run go. -/
def openLog (appendProblem? : String → Option FileProblem) : LogTarget → Except StartError Unit
  | .off => .ok ()
  | .nameless => .error .namelessLog
  | .file path =>
      match appendProblem? path with
      | none => .ok ()
      | some problem => .error (.file { problem := problem, path := path })

/-- The report of a session. -/
def reportOf (transcript : Transcript κ) : Report κ where
  output := transcript.output
  events := transcript.events
  outcome := transcript.outcome.map fun _ => 0

/-- The settings of a run under some options. -/
def settings (options : Options) : Settings where
  limit := Settings.standardLimit
  showConstraints := options.showConstraints

variable [DecidableEq κ]

/-- Runs what the options ask for.  Line ends of a file are unified, those of the standard
input are not. -/
def runOptions (around : Surroundings) (options : Options) : Except StartError (Report κ) :=
  match options.file with
  | some path =>
      match around.files.read path with
      | .error problem => .error (.file { problem := problem, path := path })
      | .ok text =>
          let program := String.ofList (Text.unifyNewlines text.toList)
          .ok (Batch.runWithin .standard (settings options) options.verbose program)
  | none =>
      if around.terminal then
        let session : Session κ := { env := ∅, values := ∅ }
        .ok (reportOf (session.run (settings options) around.interrupted around.input))
      else .ok (Batch.runWithin .standard (settings options) options.verbose around.input)

/-- What a command line comes to in its surroundings. -/
def ofArguments (around : Surroundings) (arguments : List String) : Invocation κ :=
  match CommandLine.parse around.files.readProblem? arguments with
  | .help => .exit 0
  | .invalid => .exit 2
  | .unopened error => .refused (.file error)
  | .run options =>
      match openLog around.files.appendProblem? options.log with
      | .error error => .refused error
      | .ok () =>
          match runOptions around options with
          | .error error => .refused error
          | .ok report => .ran options report

end Invocation

end LetPoly
