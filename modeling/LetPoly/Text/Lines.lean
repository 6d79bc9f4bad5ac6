/-!
# Lines of a text

Two notions of line meet in error messages.  A position is counted in lines that end at
a newline character; the line that is shown is taken from the wide splitting, which also
ends a line at the other line boundaries of Unicode.  The wide splitting drops the line
ends and gives no empty line after a final line end.

Main results:

- Theorem {lit}`splitLines_cons`: how one character changes the wide splitting.
-/

namespace LetPoly
namespace Text

/-- The characters that end a line in the wide splitting. -/
def isLineEnd (c : Char) : Bool :=
  let n := c.toNat
  (10 ≤ n && n ≤ 13) || (28 ≤ n && n ≤ 30) || n == 0x85 || n == 0x2028 || n == 0x2029

/-- The lines of a text without their ends, where a carriage return and the newline right
after it end one line together. -/
def splitLines : List Char → List (List Char)
  | [] => []
  | '\r' :: '\n' :: rest => [] :: splitLines rest
  | c :: rest =>
      if isLineEnd c then [] :: splitLines rest
      else
        match splitLines rest with
        | [] => [[c]]
        | line :: lines => (c :: line) :: lines

/-- The line with the given number, counted from zero, or the empty line if there is none. -/
def lineAt (text : String) (number : Nat) : List Char :=
  (splitLines text.toList).getD number []

/-- A place in a text: a line number and a column, both counted from zero. -/
structure Position where
  /-- The number of newlines before the place. -/
  line : Nat
  /-- The number of characters between the last of those newlines and the place. -/
  column : Nat
deriving DecidableEq

/-- The position of the character with the given index. -/
def positionAt (text : String) (index : Nat) : Position :=
  let before := text.toList.take index
  { line := before.count '\n'
    column := (before.reverse.takeWhile (fun c => c != '\n')).length }

/-- Reads every line end that begins with a carriage return as one newline. -/
def unifyNewlines : List Char → List Char
  | [] => []
  | '\r' :: '\n' :: rest => '\n' :: unifyNewlines rest
  | c :: rest => (if c = '\r' then '\n' else c) :: unifyNewlines rest

/-- The pieces of a text between newlines; a text that ends in a newline has no piece
after it. -/
def newlineLines : List Char → List (List Char)
  | [] => []
  | c :: rest =>
      if c = '\n' then [] :: newlineLines rest
      else
        match newlineLines rest with
        | [] => [[c]]
        | line :: lines => (c :: line) :: lines

/-- A character that ends no line joins the first line of what follows it. -/
theorem splitLines_cons {c : Char} (hc : isLineEnd c = false) (rest : List Char) :
    splitLines (c :: rest) =
      match splitLines rest with
      | [] => [[c]]
      | line :: lines => (c :: line) :: lines := by
  rw [splitLines]
  · rw [hc]
    simp
  · rintro r rfl
    simp [isLineEnd] at hc

end Text
end LetPoly
