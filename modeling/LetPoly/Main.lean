import LetPoly.Invocation
import LetPoly.Log

/-!
# The command line program

Runs the program of a file or of the standard input, or an interactive session if the
standard input is a terminal.
-/

namespace LetPoly
namespace Main

open CommandLine

/-- The explanation of the command line. -/
def usage : String :=
  "usage: poly [-h] [--verbose] [--show-constraints] [--log-file LOG_FILE] [file]\n"

/-- Writes the reports of a run to where the options want them. -/
def writeEvents (options : Options) (events : List (Event Empty)) : IO Unit := do
  let records := Log.records events
  if options.verbose then
    for record in records do
      IO.eprint record.line
  match options.log with
  | .file path =>
      let handle ← IO.FS.Handle.mk path .append
      for record in records do
        handle.putStr record.json
  | .off | .nameless => return

/-- The exit status of a run that ended with a failure. -/
def fail (failure : Failure Empty) : IO UInt32 := do
  IO.eprintln failure.message
  return 1

/-- Reads lines and answers them until the input ends. -/
partial def converse (options : Options) (session : Session Empty) : IO UInt32 := do
  let stdout ← IO.getStdout
  stdout.putStr Session.prompt
  stdout.flush
  let line ← (← IO.getStdin).getLine
  if line.isEmpty then
    stdout.putStr ("\n" ++ Session.farewell)
    return 0
  let text := if line.endsWith "\n" then (line.dropEnd 1).toString else line
  let turn := session.take (Invocation.settings options) text
  writeEvents options turn.events
  stdout.putStr turn.output
  match turn.outcome with
  | .ok next => converse options next
  | .error failure => fail failure

/-- Runs the program of a text. -/
def runText (options : Options) (text : String) : IO UInt32 := do
  let report := Batch.runWithin .standard (Invocation.settings options) options.verbose text
  writeEvents options report.events
  IO.print report.output
  match report.outcome with
  | .ok status => return UInt32.ofNat status
  | .error failure => fail failure

/-- What keeps a file from being opened. -/
def problemOf (path : String) (mode : IO.FS.Mode) : IO (Option FileProblem) := do
  try
    discard (IO.FS.Handle.mk path mode)
    return none
  catch _ =>
    return some .missing

/-- The exit status of a run that does not start. -/
def refuse (error : StartError) : IO UInt32 := do
  IO.eprintln error.message
  return 1

/-- Runs what the options ask for. -/
def runOptions (options : Options) : IO UInt32 := do
  match options.file with
  | some path =>
      let text ← IO.FS.readFile path
      runText options (String.ofList (Text.unifyNewlines text.toList))
  | none =>
      let stdin ← IO.getStdin
      if ← stdin.isTty then
        converse options { env := ∅, values := ∅ }
      else
        runText options (← stdin.readToEnd)

/-- Does what a command line asks for. -/
def run (arguments : List String) : IO UInt32 := do
  let problems ← arguments.mapM fun path => return (path, ← problemOf path .read)
  match CommandLine.parse (fun path => (problems.lookup path).join) arguments with
  | .help =>
      IO.print usage
      return 0
  | .invalid =>
      IO.eprint usage
      return 2
  | .unopened error => refuse (.file error)
  | .run options =>
      let problem ←
        match options.log with
        | .file path => problemOf path .append
        | .off | .nameless => pure none
      match Invocation.openLog (fun _ => problem) options.log with
      | .error error => refuse error
      | .ok () => runOptions options

end Main
end LetPoly

/-- The program. -/
def main (arguments : List String) : IO UInt32 :=
  LetPoly.Main.run arguments
