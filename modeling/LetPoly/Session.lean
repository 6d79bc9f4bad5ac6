import LetPoly.Event
import LetPoly.Failure
import LetPoly.Text.Blank
import LetPoly.Text.Lines

/-!
# Interactive sessions

A session holds the schemes and the values of the names that were defined so far.  Each
line of input is a definition, which adds to both, or an expression, whose scheme and value
are printed.  A line that is the fault of its writer is reported and changes nothing.
-/

namespace LetPoly

variable {κ : Type}

/-- The names defined so far. -/
structure Session (κ : Type) where
  /-- Their schemes. -/
  env : Env κ
  /-- Their values. -/
  values : Bindings Value

/-- What comes of one line of input. -/
structure Turn (κ : Type) where
  /-- The text that is printed. -/
  output : String
  /-- The steps that are reported. -/
  events : List (Event κ)
  /-- The session after the line, or the failure that ends the session. -/
  outcome : Except (Failure κ) (Session κ)

/-- What comes of a whole session. -/
structure Transcript (κ : Type) where
  /-- The text that is printed. -/
  output : String
  /-- The steps that are reported. -/
  events : List (Event κ)
  /-- The environment at the end, or the failure that ended the session. -/
  outcome : Except (Failure κ) (Env κ)

/-- What is printed about an inference on request. -/
def Inference.details (r : Inference κ) : String :=
  "Constraints:\n" ++ Constraint.renderLines r.constraints ++
    "\nSubstitution:\n" ++ r.substitution.renderLines ++
    "\nType: " ++ r.type.render ++ "\n"

/-- The line that gives a name its scheme. -/
def Scheme.definitionLine (name : String) (scheme : Scheme κ) : String :=
  name ++ " : " ++ scheme.render ++ "\n"

/-- The line that gives the scheme of an expression. -/
def Scheme.resultLine (scheme : Scheme κ) : String :=
  ": " ++ scheme.render ++ "\n"

/-- How a run is carried out. -/
structure Settings where
  /-- How deep evaluation may nest. -/
  limit : Nat
  /-- Whether constraints, substitution and unnamed type are printed as well. -/
  showConstraints : Bool

/-- How deep evaluation may nest unless told otherwise. -/
def Settings.standardLimit : Nat :=
  1000

namespace Session

/-- The text that asks for a line. -/
def prompt : String :=
  ">>> "

/-- The text that ends a session. -/
def farewell : String :=
  "Bye!\n"

/-- The headings of a session's reports. -/
def headings : Headings where
  parse := "Syntax error:\n\n"
  check := "Type error:\n\n"
  eval := "Evaluation error:\n\n"

/-- A turn that fails after printing some text: the failure is reported and the session
goes on unchanged, or it ends the session. -/
def failing (session : Session κ) (output : String) (events : List (Event κ))
    (failure : Failure κ) : Turn κ :=
  match failure.report? headings with
  | some report =>
      { output := output ++ report, events := events, outcome := .ok session }
  | none => { output := output, events := events, outcome := .error failure }

variable [DecidableEq κ]

/-- Takes a definition. -/
def define (settings : Settings) (session : Session κ) (d : Definition) : Turn κ :=
  let events := d.value.inferenceEvents session.env
  match d.value.scheme session.env with
  | .error error => session.failing "" events (.check error)
  | .ok scheme =>
      match d.value.eval settings.limit session.values.entries with
      | .error error => session.failing "" events (.ofEval error)
      | .ok value =>
          { output := scheme.definitionLine d.name
            events := events
            outcome := .ok {
              env := session.env.insert d.name scheme
              values := session.values.insert d.name value } }

/-- Takes an expression. -/
def answer (settings : Settings) (session : Session κ) (e : Expr) : Turn κ :=
  let events := e.inferenceEvents session.env
  match e.inference session.env with
  | .error error => session.failing "" events (.check error)
  | .ok r =>
      let typeText :=
        (if settings.showConstraints then r.details else "") ++ r.scheme.resultLine
      match e.eval settings.limit session.values.entries with
      | .error error => session.failing typeText events (.ofEval error)
      | .ok value =>
          match value.render with
          | .error error => session.failing (typeText ++ "= ") events (.digits error)
          | .ok text =>
              { output := typeText ++ "= " ++ text ++ "\n"
                events := events
                outcome := .ok session }

/-- Takes one line of input. -/
def take (settings : Settings) (session : Session κ) (line : String) : Turn κ :=
  if Text.isBlankLine line then
    { output := "", events := [], outcome := .ok session }
  else
    match Parser.Form.parse line with
    | .error error => session.failing "" [] (.ofRead line error)
    | .ok (.definition d) => session.define settings d
    | .ok (.expression e) => session.answer settings e

/-- Takes lines one after the other, asking for each; the outcome is the session after the
last of them. -/
def takeAll (settings : Settings) (session : Session κ) : List String → Turn κ
  | [] => { output := "", events := [], outcome := .ok session }
  | line :: rest =>
      let turn := session.take settings line
      match turn.outcome with
      | .error failure =>
          { output := prompt ++ turn.output
            events := turn.events
            outcome := .error failure }
      | .ok next =>
          let later := next.takeAll settings rest
          { output := prompt ++ turn.output ++ later.output
            events := turn.events ++ later.events
            outcome := later.outcome }

/-- Runs a session on all of an input.  An interrupt at the end of the input gives up the
definitions that were made. -/
def run (settings : Settings) (interrupted : Bool) (session : Session κ) (input : String) :
    Transcript κ :=
  let lines := (Text.newlineLines input.toList).map String.ofList
  let turn := session.takeAll settings lines
  match turn.outcome with
  | .error failure =>
      { output := turn.output, events := turn.events, outcome := .error failure }
  | .ok last =>
      { output := turn.output ++ prompt ++ (if interrupted then "" else "\n") ++ farewell
        events := turn.events
        outcome := .ok (if interrupted then session.env else last.env) }

end Session

end LetPoly
