import LetPoly.Text.Decimal
import LetPoly.Text.Order

/-!
# Parser combinators

A parser starts at a place of a text.  It reads a value and gives the place behind it, or it
fails.  Choices are ordered: the first alternative that reads something is taken, and the others
are not tried.  Repetitions are greedy: they go on until an attempt fails, and what the attempt
had passed over is left to what comes next.

Along with its answer a parser gives the furthest failure that it has met, and what was expected
there.  Where answers are put together, the further failure is kept; failures at the same place
add up.  A text that is rejected is reported at the furthest of all failures.

Current gaps:

- Patterns are functions that cut a text, one for each pattern in use, and not regular expressions.
- Call frames are not counted.  Where the grammar is recursive, its module bounds the nesting.
-/

namespace LetPoly

/-- A place of a text. -/
structure Cursor where
  /-- The offset of the place. -/
  index : Nat
  /-- The characters from there on. -/
  rest : List Char
deriving DecidableEq

namespace Cursor

/-- The first place of a text. -/
def start (text : String) : Cursor :=
  ⟨0, text.toList⟩

/-- The later place at which the given characters are left. -/
def before (pos : Cursor) (rest : List Char) : Cursor :=
  ⟨pos.index + (pos.rest.length - rest.length), rest⟩

end Cursor

namespace Parser

/-- The furthest failure: its offset, and what was expected there. -/
structure Furthest where
  index : Nat
  expected : List String
deriving DecidableEq

/-- The further one of two failures.  What was expected at the same offset is put together. -/
def Furthest.merge (f g : Furthest) : Furthest :=
  if f.index < g.index then g
  else if g.index < f.index then f
  else ⟨f.index, f.expected ++ g.expected⟩

/-- Why a reading was given up. -/
inductive Abort where
  /-- An integer has too many digits. -/
  | digits (error : Text.DigitError)
  /-- Expressions are nested too deeply. -/
  | tooDeep
deriving DecidableEq

/-- What a parser answers. -/
inductive Answer (α : Type) where
  /-- A value was read up to a place; there may have been failures on the way. -/
  | read (value : α) (stop : Cursor) (furthest : Option Furthest)
  /-- No value was read. -/
  | failed (furthest : Furthest)
  /-- The reading was given up. -/
  | aborted (reason : Abort)
deriving DecidableEq

/-- Adds the furthest failure that was met before. -/
def Answer.aggregate {α : Type} (before : Option Furthest) : Answer α → Answer α
  | read value stop furthest => read value stop (before.merge Furthest.merge furthest)
  | failed furthest => failed ((before.map (·.merge furthest)).getD furthest)
  | aborted reason => aborted reason

/-- Changes the value that was read. -/
def Answer.map {α β : Type} (f : α → β) : Answer α → Answer β
  | read value stop furthest => read (f value) stop furthest
  | failed furthest => failed furthest
  | aborted reason => aborted reason

end Parser

/-- A parser: its answer at each place. -/
def Parser (α : Type) : Type :=
  Cursor → Parser.Answer α

namespace Parser

variable {α β : Type}

instance : Monad Parser where
  pure value pos := .read value pos none
  bind p next pos :=
    match p pos with
    | .read value stop furthest => (next value stop).aggregate furthest
    | .failed furthest => .failed furthest
    | .aborted reason => .aborted reason

section Bind

variable {p : Parser α} {next : α → Parser β} {pos : Cursor}

/-- Behind what was read, the next parser is asked. -/
theorem bind_of_read {value : α} {stop : Cursor} {furthest : Option Furthest}
    (h : p pos = .read value stop furthest) :
    (p >>= next) pos = (next value stop).aggregate furthest := by
  simp only [bind, h]

/-- A failure ends a sequence. -/
theorem bind_of_failed {furthest : Furthest} (h : p pos = .failed furthest) :
    (p >>= next) pos = .failed furthest := by
  simp only [bind, h]

/-- A reading that is given up ends a sequence. -/
theorem bind_of_aborted {reason : Abort} (h : p pos = .aborted reason) :
    (p >>= next) pos = .aborted reason := by
  simp only [bind, h]

end Bind

/-- Fails at once. -/
def fail (description : String) : Parser α :=
  fun pos => .failed ⟨pos.index, [description]⟩

/-- Gives up the reading. -/
def abort (reason : Abort) : Parser α :=
  fun _ => .aborted reason

/-- Describes what is read as a whole: a failure inside of it is one at its start. -/
def desc (description : String) (p : Parser α) : Parser α :=
  fun pos =>
    match p pos with
    | .failed _ => .failed ⟨pos.index, [description]⟩
    | answer => answer

/-- Tries a parser, and another one if the first fails. -/
def orElse (p q : Parser α) : Parser α :=
  fun pos =>
    match p pos with
    | .failed furthest => (q pos).aggregate (some furthest)
    | answer => answer

/-- Tries parsers in order. -/
def choice (p : Parser α) : List (Parser α) → Parser α
  | [] => p
  | q :: more => orElse p (choice q more)

/-- Reads as long as there is something to read, at most the given number of times. -/
def manyUpTo (p : Parser α) : Nat → Parser (List α)
  | 0, pos => .read [] pos none
  | n + 1, pos =>
      match p pos with
      | .read value stop furthest =>
          ((manyUpTo p n stop).map (value :: ·)).aggregate furthest
      | .failed furthest => .read [] pos (some furthest)
      | .aborted reason => .aborted reason

/-- Reads as long as there is something to read.  Where each reading takes a character, there
are not more of them than characters, and one attempt that fails. -/
def many (p : Parser α) : Parser (List α) :=
  fun pos => manyUpTo p (pos.rest.length + 1) pos

/-- Reads once, and then as long as there is something to read. -/
def atLeastOne (p : Parser α) : Parser (List α) := do
  let first ← p
  let more ← many p
  return first :: more

/-- What is left of some characters behind the given ones. -/
def stripChars? : List Char → List Char → Option (List Char)
  | [], cs => some cs
  | _ :: _, [] => none
  | c :: text, d :: cs => if c = d then stripChars? text cs else none

/-- Reads the given text. -/
def string (text : String) : Parser String :=
  fun pos =>
    match stripChars? text.toList pos.rest with
    | some after => .read text (pos.before after) none
    | none => .failed ⟨pos.index, [text]⟩

/-- Reads what a pattern takes off the text.  The pattern gives what it takes and what is left. -/
def regex (pattern : String) (take? : List Char → Option (List Char × List Char)) :
    Parser (List Char) :=
  fun pos =>
    match take? pos.rest with
    | some (taken, after) => .read taken (pos.before after) none
    | none => .failed ⟨pos.index, [pattern]⟩

/-- Reads nothing at the end of the text. -/
def endOfText : Parser Unit :=
  fun pos => if pos.rest.isEmpty then .read () pos none else .failed ⟨pos.index, ["EOF"]⟩

end Parser

/-- A text that is rejected. -/
structure ParseError where
  /-- The offset of the furthest failure. -/
  index : Nat
  /-- What was expected there, in code point order. -/
  expected : List String
deriving DecidableEq

/-- Why a text cannot be read. -/
inductive ReadError where
  /-- The text is not a sentence of the grammar. -/
  | syntaxError (error : ParseError)
  /-- The reading was given up. -/
  | aborted (reason : Parser.Abort)
deriving DecidableEq

namespace Parser

/-- Reports a failure; each description is listed once. -/
def Furthest.report (furthest : Furthest) : ParseError where
  index := furthest.index
  expected := Text.sortTexts furthest.expected.eraseDups

/-- Reads all of a text. -/
def parse {α : Type} (p : Parser α) (text : String) : Except ReadError α :=
  let all : Parser α := do
    let value ← p
    endOfText
    return value
  match all (.start text) with
  | .read value _ _ => .ok value
  | .failed furthest => .error (.syntaxError furthest.report)
  | .aborted reason => .error (.aborted reason)

end Parser
end LetPoly
