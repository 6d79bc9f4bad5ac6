import LetPoly.Event
import LetPoly.Text.Json
import LetPoly.Text.Template

/-!
# Logging

A logger lets messages pass that are at least as grave as its own level.  Messages are
templates with arguments.  The reports of a run are all of the lowest level.
-/

namespace LetPoly
namespace Log

/-- How grave a message is. -/
inductive Level where
  | debug
  | info
  | warning
  | error
deriving DecidableEq

namespace Level

/-- All levels, the least grave first. -/
def all : List Level :=
  [debug, info, warning, error]

/-- The rank of a level. -/
def rank : Level → Nat
  | debug => 0
  | info => 1
  | warning => 2
  | error => 3

/-- The name of a level. -/
def text : Level → String
  | debug => "DEBUG"
  | info => "INFO"
  | warning => "WARNING"
  | error => "ERROR"

/-- The name of a level in calls. -/
def method : Level → String
  | debug => "debug"
  | info => "info"
  | warning => "warning"
  | error => "error"

/-- The level with the given name. -/
def ofText? (text : String) : Option Level :=
  all.find? fun level => level.text == text

end Level

/-- A message on its way to a logger. -/
structure Call where
  /-- How grave the message is. -/
  level : Level
  /-- The template of the message. -/
  template : String
  /-- The arguments by position. -/
  arguments : List String
  /-- The arguments by name. -/
  named : List (String × String)

/-- Why a call cannot be carried out. -/
inductive CallError where
  /-- An argument has a name that the logger needs for itself. -/
  | reserved (level : Level) (name : String)
  /-- The template cannot be filled in. -/
  | template (error : Text.TemplateError)
deriving DecidableEq

/-- The names that the logger needs for itself. -/
def reservedNames : List String :=
  ["self", "format_string"]

/-- The name of an argument that is for the record and not for the template. -/
def recordArgument : String :=
  "exc_info"

/-- The wording of a call error. -/
def CallError.message : CallError → String
  | reserved level name =>
      "PolyLogger." ++ level.method ++ "() got multiple values for argument '" ++ name ++ "'"
  | template error => error.message

/-- The message of a call, if a logger of the given level lets it pass. -/
def Call.emit (threshold : Level) (call : Call) : Except CallError (Option String) :=
  match call.named.find? fun (name, _) => reservedNames.contains name with
  | some (name, _) => .error (.reserved call.level name)
  | none =>
      if threshold.rank ≤ call.level.rank then
        let arguments : Text.Arguments :=
          { positional := call.arguments
            named := call.named.filter fun (name, _) => name != recordArgument }
        match Text.fillTemplate call.template arguments with
        | .ok message => .ok (some message)
        | .error error => .error (.template error)
      else .ok none

/-- The record of a report of a run. -/
structure Record where
  /-- Where the report comes from. -/
  origin : Origin
  /-- The wording. -/
  message : String
deriving DecidableEq

/-- The level of the reports of a run. -/
def reportLevel : Level :=
  .debug

variable {κ : Type}

/-- The records of the reports of a run; a report without a text leaves none. -/
def records (events : List (Event κ)) : List Record :=
  events.filterMap fun event =>
    match event.message with
    | .ok message => some { origin := event.origin, message := message }
    | .error _ => none

/-- The line that a verbose run writes for a record. -/
def Record.line (record : Record) : String :=
  reportLevel.text ++ " " ++ record.origin.logger ++ ": " ++ record.message ++ "\n"

/-- The line that a log file holds for a record. -/
def Record.json (record : Record) : String :=
  Text.jsonObject
    [("name", record.origin.logger), ("message", record.message),
      ("level_name", reportLevel.text), ("file_name", record.origin.file),
      ("function_name", record.origin.function)] ++ "\n"

end Log
end LetPoly
