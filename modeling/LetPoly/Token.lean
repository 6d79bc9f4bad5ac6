import LetPoly.Combinator
import LetPoly.Expr
import LetPoly.Text.Blank

/-!
# Tokens

The parsers of single tokens: integers, operators, keywords, names, brackets and parentheses.
White space and comments, from a semicolon to the end of the line, are skipped behind each token.

A token is described in reports by its own text, and an integer and a name by their kind.  A
failure inside of a token counts as one at its start.
-/

namespace LetPoly

/-- A reserved word that is not an operator. -/
inductive Keyword where
  | lam
  | letWord
  | ifWord
  | fix
  | defWord
  | trueWord
  | falseWord
deriving DecidableEq, Inhabited

namespace Keyword

/-- All keywords. -/
def all : List Keyword :=
  [lam, letWord, ifWord, fix, defWord, trueWord, falseWord]

/-- The text of a keyword. -/
def text : Keyword → String
  | lam => "lam"
  | letWord => "let"
  | ifWord => "if"
  | fix => "fix"
  | defWord => "def"
  | trueWord => "true"
  | falseWord => "false"

/-- The word of a truth value. -/
def ofBool (value : Bool) : Keyword :=
  if value then trueWord else falseWord

/-- The keyword with the given text, if there is one. -/
def ofText? (text : String) : Option Keyword :=
  all.find? fun k => k.text == text

/-- A keyword is found by its own text. -/
@[simp] theorem ofText?_text (k : Keyword) : ofText? k.text = some k := by
  cases k <;> decide

end Keyword

namespace Token

/-! ## Patterns -/

/-- Whether a character may start a word. -/
def isWordStart (c : Char) : Bool :=
  c.isAlpha || c = '_'

/-- Whether a character may continue a word. -/
def isWordChar (c : Char) : Bool :=
  c.isAlphanum || c = '_'

/-- Drops white space and comments; the flag says that a comment is open. -/
def skipBlanks (inComment : Bool) : List Char → List Char
  | [] => []
  | c :: rest =>
      if inComment then skipBlanks (c != '\n') rest
      else if Text.isBlank c then skipBlanks false rest
      else if c = ';' then skipBlanks true rest
      else c :: rest

/-- Takes a word off some characters. -/
def takeWord? : List Char → Option (List Char × List Char)
  | [] => none
  | c :: cs =>
      if isWordStart c then some (c :: cs.takeWhile isWordChar, cs.dropWhile isWordChar) else none

/-- Takes the given text off some characters, unless a word goes on behind it. -/
def takeKeyword? (text : String) (cs : List Char) : Option (List Char × List Char) :=
  match Parser.stripChars? text.toList cs with
  | some after => if after.head?.any isWordChar then none else some (text.toList, after)
  | none => none

/-- Takes digits off some characters. -/
def takeDigits? (cs : List Char) : Option (List Char × List Char) :=
  let digits := cs.takeWhile Char.isDigit
  if digits.isEmpty then none else some (digits, cs.dropWhile Char.isDigit)

/-- Takes digits, with or without a minus sign, off some characters. -/
def takeInteger? : List Char → Option (List Char × List Char)
  | '-' :: cs => (takeDigits? cs).map fun (digits, after) => ('-' :: digits, after)
  | cs => takeDigits? cs

/-- The integer of a sign and digits. -/
def toInt : List Char → Except Text.DigitError Int
  | '-' :: digits => Text.readInt true digits
  | digits => Text.readInt false digits

end Token

namespace Parser

open Token

variable {α : Type}

/-! ## Parsers of tokens -/

/-- Skips white space and comments. -/
def whitespace : Parser Unit :=
  fun pos => .read () (pos.before (skipBlanks false pos.rest)) none

/-- Skips white space and comments behind what is read. -/
def lexeme (p : Parser α) : Parser α := do
  let value ← p
  whitespace
  return value

/-- Reads a bracket, a parenthesis or an operator. -/
def symbol (text : String) : Parser String :=
  lexeme (string text)

/-- Reads a reserved word. -/
def keyword (word : String) : Parser (List Char) :=
  desc word (lexeme (regex (word ++ "(?![A-Za-z0-9_])") (takeKeyword? word)))

/-- Reads a word. -/
def word : Parser (List Char) :=
  lexeme (regex "[A-Za-z_][A-Za-z0-9_]*" takeWord?)

/-- Whether a word is a keyword or the name of an operator. -/
def isReserved (word : String) : Bool :=
  (Keyword.ofText? word).isSome || (Primitive.ofSymbol? word).isSome

/-- Takes a word as a name, unless it is reserved. -/
def nameOf (word : List Char) : Parser String :=
  if isReserved (String.ofList word) then fail "name" else return String.ofList word

/-- Reads a word that is not reserved. -/
def name : Parser String :=
  desc "name" do
    let cs ← word
    nameOf cs

/-- Takes a sign and digits as an integer, unless there are too many of them. -/
def integerOf (cs : List Char) : Parser Expr :=
  match toInt cs with
  | .ok value => return .int value
  | .error error => abort (.digits error)

/-- Reads an integer.  One that is too long is not read as anything else. -/
def integer : Parser Expr := do
  let cs ← lexeme (desc "integer" (regex "-?[0-9]+" takeInteger?))
  integerOf cs

/-- Reads the word of a truth value. -/
def booleanWord (value : Bool) : Parser Expr := do
  let _ ← keyword (Keyword.ofBool value).text
  return .bool value

/-- Reads a truth value. -/
def boolean : Parser Expr :=
  choice (booleanWord true) [booleanWord false]

/-- Reads the signs of an operator. -/
def operatorSign (p : Primitive) : Parser Expr := do
  let _ ← symbol p.symbol
  return .prim p

/-- Reads an operator that is written with signs. -/
def operator : Parser Expr :=
  choice (operatorSign .eql) [operatorSign .add, operatorSign .sub, operatorSign .mul]

/-- Reads the word of an operator. -/
def operatorWord (p : Primitive) : Parser Expr := do
  let _ ← keyword p.symbol
  return .prim p

/-- Reads an operator that is written as a word. -/
def namedPrimitive : Parser Expr :=
  choice (operatorWord .null) [operatorWord .map, operatorWord .foldl, operatorWord .pair,
    operatorWord .fst, operatorWord .snd, operatorWord .cons, operatorWord .nil]

/-- Reads a name as an expression. -/
def nameExpression : Parser Expr := do
  let x ← name
  return .var x

end Parser
end LetPoly
