import LetPoly.Expr
import LetPoly.Text.Decimal

/-!
# Printing expressions

Expressions and programs are printed in the syntax that the reader accepts.  A curried
application is printed with one pair of parentheses, so {lit}`((f a) b)` comes out as
{lit}`(f a b)`.  Two things cannot be printed: a missing part and an integer that is too
long.
-/

namespace LetPoly

/-- Why an expression cannot be printed. -/
inductive PrintError where
  /-- A part of the expression is missing. -/
  | hole
  /-- An integer literal has too many digits. -/
  | digits (error : Text.DigitError)
deriving DecidableEq

/-- The wording of a print error. -/
def PrintError.message : PrintError → String
  | .hole => "don't know how to print 'None'"
  | .digits error => error.message

namespace Expr

/-- The text of a truth value. -/
def boolText (value : Bool) : String :=
  if value then "true" else "false"

mutual

/-- Prints an expression.  A bare application leaves out its parentheses, as it does when
it is the function of a larger application. -/
def renderAt (bare : Bool) : Expr → Except PrintError String
  | var name => .ok name
  | int value => (Text.writeInt value).mapError .digits
  | bool value => .ok (boolText value)
  | prim primitive => .ok primitive.symbol
  | app function argument => do
      let f ← renderAt true function
      let a ← renderAt false argument
      let inner := f ++ " " ++ a
      return if bare then inner else "(" ++ inner ++ ")"
  | lam parameter body => do
      return "(lam [" ++ parameter ++ "] " ++ (← renderAt false body) ++ ")"
  | letIn name value body => do
      let v ← renderAt false value
      let b ← renderAt false body
      return "(let ([" ++ name ++ " " ++ v ++ "]) " ++ b ++ ")"
  | ifThenElse test onTrue onFalse => do
      let t ← renderAt false test
      let a ← renderAt false onTrue
      let b ← renderAt false onFalse
      return "(if " ++ t ++ " " ++ a ++ " " ++ b ++ ")"
  | fix body => do
      return "(fix " ++ (← renderAt false body) ++ ")"
  | list elements => do
      return "[" ++ " ".intercalate (← renderList elements) ++ "]"
  | hole => .error .hole

/-- Prints expressions from left to right. -/
def renderList : List Expr → Except PrintError (List String)
  | [] => .ok []
  | e :: rest => do
      let text ← renderAt false e
      let texts ← renderList rest
      return text :: texts

end

/-- Prints an expression. -/
def render (e : Expr) : Except PrintError String :=
  renderAt false e

end Expr

/-- Prints a definition. -/
def Definition.render (d : Definition) : Except PrintError String := do
  return "(def " ++ d.name ++ " " ++ (← d.value.render) ++ ")"

/-- Prints a program: one definition a line, then the body. -/
def Program.render (program : Program) : Except PrintError String := do
  let lines ← program.definitions.mapM Definition.render
  let body ← program.body.render
  return "\n".intercalate (lines ++ [body])

end LetPoly
