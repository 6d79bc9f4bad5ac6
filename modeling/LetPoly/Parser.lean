import LetPoly.Token

/-!
# The parsers of the grammar

The forms of the language, each as a parser that reads its parts in order:

```text
expression := integer | operator | true | false | name
            | [ expression* ]
            | ( lam [ name ] expression )
            | ( let ( [ name expression ] ) expression )
            | ( if expression expression expression )
            | ( fix expression )
            | ( expression expression+ )
definition := ( def name expression )
program    := definition* expression
```

Only tokens are described in reports, so that a failure inside of a form is reported at the token
that does not fit and not at the form.

Current gaps:

- A parser for expressions may be nested without end.  It is cut off after a number of levels
  that is part of its name, and a text never needs more levels than it has characters.  With a
  given number of levels, every form counts as one, whatever calls it takes to read it.
-/

namespace LetPoly
namespace Parser

/-! ## Forms -/

section Forms

variable (expression : Parser Expr)

/-- Reads a list. -/
def listExpression : Parser Expr := do
  let _ ← symbol "["
  let elements ← many expression
  let _ ← symbol "]"
  return .list elements

/-- Reads a function, without the parentheses around it. -/
def lambdaExpression : Parser Expr := do
  let _ ← keyword Keyword.lam.text
  let _ ← symbol "["
  let parameter ← name
  let _ ← symbol "]"
  let body ← expression
  return .lam parameter body

/-- Reads a local definition, without the parentheses around it. -/
def letExpression : Parser Expr := do
  let _ ← keyword Keyword.letWord.text
  let _ ← symbol "("
  let _ ← symbol "["
  let x ← name
  let value ← expression
  let _ ← symbol "]"
  let _ ← symbol ")"
  let body ← expression
  return .letIn x value body

/-- Reads a choice, without the parentheses around it. -/
def ifExpression : Parser Expr := do
  let _ ← keyword Keyword.ifWord.text
  let test ← expression
  let onTrue ← expression
  let onFalse ← expression
  return .ifThenElse test onTrue onFalse

/-- Reads a fixed point, without the parentheses around it. -/
def fixExpression : Parser Expr := do
  let _ ← keyword Keyword.fix.text
  let body ← expression
  return .fix body

/-- Reads an application, without the parentheses around it. -/
def applicationExpression : Parser Expr := do
  let function ← expression
  let arguments ← atLeastOne expression
  return function.apps arguments

/-- Reads a form in parentheses. -/
def parenthesized : Parser Expr := do
  let _ ← symbol "("
  let inner ← choice (lambdaExpression expression) [letExpression expression,
    ifExpression expression, fixExpression expression, applicationExpression expression]
  let _ ← symbol ")"
  return inner

/-- Reads an expression, given a parser for the expressions inside of it.  Integers come before
operators, so that a sign in front of digits belongs to them. -/
def expressionWith : Parser Expr :=
  choice integer [operator, boolean, namedPrimitive, nameExpression,
    listExpression expression, parenthesized expression]

/-- Reads a definition. -/
def definition : Parser Definition := do
  let _ ← symbol "("
  let _ ← keyword Keyword.defWord.text
  let x ← name
  let value ← expression
  let _ ← symbol ")"
  return { name := x, value := value }

/-- Reads a program. -/
def program : Parser Program := do
  let definitions ← many (definition expression)
  let body ← expression
  return { definitions := definitions, body := body }

end Forms

/-- What one line of an interactive session holds. -/
inductive Form where
  /-- A definition. -/
  | definition (definition : Definition)
  /-- An expression. -/
  | expression (expression : Expr)
deriving BEq

/-- Reads a definition or an expression. -/
def definitionOrExpression (expression : Parser Expr) : Parser Form :=
  orElse
    (do let d ← definition expression
        return .definition d)
    (do let e ← expression
        return .expression e)

/-! ## Expressions -/

/-- Reads an expression that is nested at most the given number of levels deep. -/
def expressionUpTo : Nat → Parser Expr
  | 0, _ => .aborted .tooDeep
  | depth + 1, pos => expressionWith (expressionUpTo depth) pos

/-- Reads an expression, nested as deeply as the rest of the text allows. -/
def expression : Parser Expr :=
  fun pos => expressionUpTo (pos.rest.length + 1) pos

/-- Reads all of a text, with white space and comments in front. -/
def parseText {α : Type} (p : Parser α) (text : String) : Except ReadError α :=
  parse (do whitespace; p) text

end Parser

/-- Reads an expression from a text. -/
def Expr.parse (text : String) : Except ReadError Expr :=
  Parser.parseText Parser.expression text

/-- Reads a program from a text. -/
def Program.parse (text : String) : Except ReadError Program :=
  Parser.parseText (Parser.program Parser.expression) text

/-- Reads a definition or an expression from a text. -/
def Parser.Form.parse (text : String) : Except ReadError Parser.Form :=
  Parser.parseText (Parser.definitionOrExpression Parser.expression) text

/-- Reads a program in which expressions are nested at most the given number of levels deep. -/
def Program.parseUpTo (depth : Nat) (text : String) : Except ReadError Program :=
  Parser.parseText (Parser.program (Parser.expressionUpTo depth)) text

end LetPoly
