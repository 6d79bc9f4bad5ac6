import LetPoly.Depth
import LetPoly.Session

/-!
# Batch runs

A batch run reads a whole program, prints the schemes of its definitions and of its body,
and then the value of the body.  It takes place on a stack.  Where reading, checking or printing
schemes finds no room on it, the failure counts as an internal error; a report or a value that
cannot be printed ends the run without a notice.

Current gaps:

- Evaluation has a bound of its own among the settings, which is not taken from the stack.
- The nesting of the values that an evaluation error shows is not counted, nor that of the types in
  the reports of a verbose run.
-/

namespace LetPoly

/-- What comes of a batch run. -/
structure Report (κ : Type) where
  /-- The text that is printed. -/
  output : String
  /-- The steps that are reported. -/
  events : List (Event κ)
  /-- The exit status, or the failure that ended the run. -/
  outcome : Except (Failure κ) Nat

namespace Batch

variable {κ : Type}

/-- The headings of a batch run's reports. -/
def headings : Headings where
  parse := "Parse Error:\n"
  check := "Type Error:\n"
  eval := "Evaluation Error:\n"

/-- The notice for a failure that is not the fault of the program. -/
def internalNotice : String :=
  "An internal error has occurred.\nThis is a bug in poly.\n"

/-- How deeply the types are nested that the report of a failure shows. -/
def reportDepth : Failure κ → Nat
  | .check (.rejected error) => error.depth
  | _ => 0

/-- A run that fails after printing some text.  A failure that is the program's fault is
reported; all failures other than of reading are passed on as well if the run is verbose,
and failures that are not the program's fault always are.  A report for which there is no room
is not printed behind its heading. -/
def failing (stack : Stack) (verbose : Bool) (output : String) (events : List (Event κ))
    (failure : Failure κ) : Report κ :=
  if Stack.holds stack.printing (reportDepth failure) then
    match failure, failure.report? headings with
    | .parse _ _, some report =>
        { output := output ++ report, events := events, outcome := .ok 1 }
    | _, some report =>
        { output := output ++ report
          events := events
          outcome := if verbose then .error failure else .ok 1 }
    | _, none =>
        { output := output ++ internalNotice, events := events, outcome := .error failure }
  else
    { output := output ++ headings.check, events := events, outcome := .error .tooDeep }

/-- Prints some lines and goes on with what was printed so far. -/
def printing (stack : Stack) (verbose : Bool) (output : String) (events : List (Event κ))
    (lines : List Line) (next : String → Report κ) : Report κ :=
  match Line.print stack.printing lines with
  | (text, true) => next (output ++ text)
  | (text, false) => failing stack verbose (output ++ text) events .tooDeep

/-- The line that gives a name its scheme. -/
def definitionLine (name : String) (scheme : Scheme κ) : Line where
  lead := name ++ " : "
  depth := scheme.depth
  text := scheme.render ++ "\n"

/-- The line that gives the scheme of the body. -/
def resultLine (scheme : Scheme κ) : Line where
  lead := ": "
  depth := scheme.depth
  text := scheme.render ++ "\n"

/-- The lines with the constraints, the substitution and the type of an inference. -/
def detailLines (r : Inference κ) : List Line :=
  [{ lead := "Constraints:\n"
     depth := greatest (r.constraints.map Constraint.depth)
     text := Constraint.renderLines r.constraints ++ "\n" },
   { lead := "Substitution:\n"
     depth := r.substitution.depth
     text := r.substitution.renderLines ++ "\n" },
   { lead := "Type: "
     depth := r.type.depth
     text := r.type.render ++ "\n" }]

/-- The lines that give names their schemes, up to the first name that has none. -/
def definitionLines (env : Env κ) : List String → List Line × Option String
  | [] => ([], none)
  | name :: rest =>
      match env.get? name with
      | none => ([], some name)
      | some scheme =>
          let (lines, missing) := definitionLines env rest
          (definitionLine name scheme :: lines, missing)

/-- Evaluates a program whose schemes were printed, and prints its value.  A value without a text,
or with one for which there is no room, ends the run where the text would stand. -/
def printValue (stack : Stack) (settings : Settings) (verbose : Bool) (program : Program)
    (output : String) (events : List (Event κ)) : Report κ :=
  match program.eval settings.limit ∅ with
  | .error error => failing stack verbose output events (.ofEval error)
  | .ok (_, value) =>
      if Stack.holds stack.printing value.depth then
        match value.render with
        | .error error =>
            { output := output ++ "= ", events := events, outcome := .error (.digits error) }
        | .ok text =>
            { output := output ++ "= " ++ text ++ "\n", events := events, outcome := .ok 0 }
      else
        { output := output ++ "= ", events := events, outcome := .error .tooDeep }

variable [DecidableEq κ]

/-- Runs a program that was read. -/
def runProgram (stack : Stack) (settings : Settings) (verbose : Bool) (program : Program) :
    Report κ :=
  let inferring := program.inferEventsWithin stack.checking ∅
  match (program.inferWithin stack.checking ∅ : Except (Failure κ) (Env κ × Scheme κ)) with
  | .error failure => failing stack verbose "" inferring failure
  | .ok (env, scheme) =>
      let names := (program.definitions.map Definition.name).eraseDups
      let (lines, missing) := definitionLines env names
      printing stack verbose "" inferring lines fun schemes =>
        match missing with
        | some name => failing stack verbose schemes inferring (.missing name)
        | none =>
            let details : Checked κ (List Line) :=
              if settings.showConstraints then (program.body.inference env).map detailLines
              else .ok []
            let events :=
              inferring ++
                if settings.showConstraints then program.body.inferenceEvents env else []
            match details with
            | .error error => failing stack verbose schemes events (.check error)
            | .ok details =>
                printing stack verbose schemes events (details ++ [resultLine scheme])
                  fun output =>
                    printValue stack settings verbose program output
                      (events ++ Definition.evalEvents settings.limit ∅ program.definitions)

/-- Runs the program of a text on a stack. -/
def runWithin (stack : Stack) (settings : Settings) (verbose : Bool) (text : String) : Report κ :=
  match Program.parseWithin stack.reading text with
  | .error error => failing stack verbose "" [] (.ofRead text error)
  | .ok program => runProgram stack settings verbose program

/-- Runs the program of a text with as much room as it takes. -/
def run (settings : Settings) (verbose : Bool) (text : String) : Report κ :=
  runWithin .unbounded settings verbose text

end Batch

end LetPoly
