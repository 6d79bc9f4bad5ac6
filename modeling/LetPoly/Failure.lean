import LetPoly.Eval
import LetPoly.ParseReport

/-!
# Failures of a run

Everything that can end a run, from reading a text to writing a value.  Failures that are
the fault of the program at hand are reported to whoever wrote it; any other failure ends
the run.
-/

namespace LetPoly

/-- What ended a run. -/
inductive Failure (κ : Type) where
  /-- A text is not a sentence of the grammar. -/
  | parse (text : String) (error : ParseError)
  /-- A check gave no answer. -/
  | check (error : CheckError κ)
  /-- Evaluation gave no value; the message is given with the cause. -/
  | eval (error : EvalError) (message : String)
  /-- A name that was defined has no scheme. -/
  | missing (name : String)
  /-- An expression cannot be printed. -/
  | print (error : PrintError)
  /-- A numeral is too long. -/
  | digits (error : Text.DigitError)
  /-- Something is nested too deeply to be read, checked or printed. -/
  | tooDeep

variable {κ : Type}

namespace Failure

/-- The failure to read a text. -/
def ofRead (text : String) : ReadError → Failure κ
  | .syntaxError error => .parse text error
  | .aborted (.digits error) => .digits error
  | .aborted .tooDeep => .tooDeep

/-- The failure to evaluate an expression: the evaluation error, unless it has no text. -/
def ofEval (error : EvalError) : Failure κ :=
  match error.message with
  | .ok message => .eval error message
  | .error tooLong => .digits tooLong

/-- The failure to print an expression. -/
def ofPrint : PrintError → Failure κ
  | .digits error => .digits error
  | .hole => .print .hole

/-- The wording of a failure. -/
def message : Failure κ → String
  | .parse text error => error.message text
  | .check (.rejected error) => error.message
  | .check (.broken fault) => fault.message
  | .eval _ message => message
  | .missing name => Text.quoted name
  | .print error => error.message
  | .digits error => error.message
  | .tooDeep => "maximum recursion depth exceeded"

end Failure

/-- Whether an evaluation error is the fault of the program. -/
def EvalError.isReported : EvalError → Bool
  | unbound _ | notFunction _ | testNotBool _ | wrongArgument _ _ | tooDeep => true
  | hole | holeInBody | notApplicable _ => false

/-- The headings under which failures are reported. -/
structure Headings where
  /-- For texts that cannot be read. -/
  parse : String
  /-- For programs that cannot be typed. -/
  check : String
  /-- For programs that cannot be evaluated. -/
  eval : String

/-- The report of a failure that is the fault of the program. -/
def Failure.report? (headings : Headings) : Failure κ → Option String
  | .parse text error => some (headings.parse ++ error.message text ++ "\n")
  | .check (.rejected error) => some (headings.check ++ error.report ++ "\n")
  | .eval error message =>
      if error.isReported then some (headings.eval ++ message ++ "\n") else none
  | .check (.broken _) | .missing _ | .print _ | .digits _ | .tooDeep => none

end LetPoly
