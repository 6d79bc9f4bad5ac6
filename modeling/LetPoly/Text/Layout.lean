import LetPoly.Text.Digit

/-!
# Layouts

A layout says how a text is fitted into a column: a filling character with an alignment, a
least width, and a greatest number of characters after a point.  The parts of a layout that
are for numbers are understood and refused.
-/

namespace LetPoly
namespace Text

/-- Where a text stands in its column. -/
inductive Alignment where
  | left
  | right
  | center
  /-- Filling between the sign and the digits of a number. -/
  | afterSign
deriving DecidableEq

/-- The alignment that a character stands for. -/
def Alignment.ofChar? : Char → Option Alignment
  | '<' => some left
  | '>' => some right
  | '^' => some center
  | '=' => some afterSign
  | _ => none

/-- Why a layout is refused. -/
inductive LayoutError where
  /-- A number has too many digits. -/
  | longNumber
  /-- Digits are to be grouped in two ways at once. -/
  | twoSeparators
  /-- A point has no number after it. -/
  | noPrecision
  /-- Something follows the presentation of the given layout. -/
  | trailing (layout : String)
  /-- Digits are to be grouped in a presentation that has none. -/
  | separator (separator presentation : Char)
  /-- The presentation is not one of texts. -/
  | presentation (presentation : Char)
  /-- A sign, or a blank in place of a sign, is asked for. -/
  | sign (sign : Char)
  /-- Negative zeros are to be written without sign. -/
  | zeroSign
  /-- The alternate form of a number is asked for. -/
  | alternate
  /-- The text is to be filled after its sign. -/
  | afterSign
deriving DecidableEq

/-- A character as messages name it: by its code unless that is behind the blank and below
the given bound. -/
def namedChar (bound : Nat) (c : Char) : String :=
  if 32 < c.toNat && c.toNat < bound then String.singleton c
  else "\\x" ++ String.ofList (Nat.toDigits 16 c.toNat)

/-- The wording of a refused layout. -/
def LayoutError.message : LayoutError → String
  | longNumber => "Too many decimal digits in format string"
  | twoSeparators => "Cannot specify both ',' and '_'."
  | noPrecision => "Format specifier missing precision"
  | trailing layout => "Invalid format specifier '" ++ layout ++ "' for object of type 'str'"
  | separator s p =>
      "Cannot specify '" ++ String.singleton s ++ "' with '" ++ namedChar 128 p ++ "'."
  | presentation p =>
      "Unknown format code '" ++ namedChar 128 p ++ "' for object of type 'str'"
  | sign s =>
      (if s = ' ' then "Space" else "Sign") ++ " not allowed in string format specifier"
  | zeroSign => "Negative zero coercion (z) not allowed in string format specifier"
  | alternate => "Alternate form (#) not allowed in string format specifier"
  | afterSign => "'=' alignment not allowed in string format specifier"

/-- The greatest index or width. -/
def maxIndex : Nat :=
  9223372036854775807

/-- The number that some decimal digits stand for; there is none if it is too great. -/
def indexOfDigits (digits : List Nat) : Option Nat :=
  digits.foldl
    (fun soFar digit => do
      let n ← soFar
      if 10 * n + digit ≤ maxIndex then some (10 * n + digit) else none)
    (some 0)

/-- Splits the number off that some characters begin with. -/
def takeIndex (cs : List Char) : Except LayoutError (Option Nat × List Char) :=
  match cs.span isDecimalDigit with
  | ([], _) => .ok (none, cs)
  | (digits, rest) =>
      match indexOfDigits (digits.filterMap digitValue?) with
      | some n => .ok (some n, rest)
      | none => .error .longNumber

/-- How a text is fitted into a column. -/
structure Layout where
  /-- The character that fills the column. -/
  fill : Char
  /-- Where the text stands. -/
  alignment : Alignment
  /-- The least width. -/
  width : Nat
  /-- The greatest number of characters of the text. -/
  precision : Option Nat
deriving DecidableEq

/-- Splits filling and alignment off. -/
def takeAlignment (cs : List Char) : Option Char × Option Alignment × List Char :=
  match cs with
  | c :: d :: rest =>
      match Alignment.ofChar? d with
      | some a => (some c, some a, rest)
      | none =>
          match Alignment.ofChar? c with
          | some a => (none, some a, d :: rest)
          | none => (none, none, cs)
  | [c] =>
      match Alignment.ofChar? c with
      | some a => (none, some a, [])
      | none => (none, none, cs)
  | [] => (none, none, [])

/-- Splits the first character off if it is one of the given ones. -/
def takeOneOf (choices cs : List Char) : Option Char × List Char :=
  match cs with
  | c :: rest => if choices.contains c then (some c, rest) else (none, cs)
  | [] => (none, [])

/-- Splits the signs off by which digits are grouped. -/
def takeSeparator (cs : List Char) : Except LayoutError (Option Char × List Char) :=
  match takeOneOf [','] cs with
  | (some comma, rest) =>
      if rest.head? = some '_' then .error .twoSeparators else .ok (some comma, rest)
  | (none, cs) =>
      match takeOneOf ['_'] cs with
      | (some underscore, rest) =>
          if rest.head? = some ',' then .error .twoSeparators else .ok (some underscore, rest)
      | (none, cs) => .ok (none, cs)

/-- Splits a point and the number behind it off. -/
def takePrecision (cs : List Char) : Except LayoutError (Option Nat × List Char) :=
  match takeOneOf ['.'] cs with
  | (none, cs) => .ok (none, cs)
  | (some _, rest) => do
      match ← takeIndex rest with
      | (none, _) => .error .noPrecision
      | (some n, rest) => .ok (some n, rest)

/-- Checks the presentation that a layout ends with, which is that of texts unless one is
given. -/
def readPresentation (layout : List Char) (separator : Option Char) :
    List Char → Except LayoutError Unit
  | [] => check 's'
  | [p] => check p
  | _ :: _ :: _ => .error (.trailing (String.ofList layout))
where
  /-- Whether a presentation is that of texts, and grouped digits go with it. -/
  check (p : Char) : Except LayoutError Unit :=
    match separator with
    | some s =>
        if "defgEG%F".toList.contains p || (s = '_' && "boxX".toList.contains p) then
          .error (.presentation p)
        else .error (.separator s p)
    | none => if p = 's' then .ok () else .error (.presentation p)

/-- Reads a layout for texts.  What cannot be read is refused before what is not meant for
texts. -/
def Layout.parse (layout : List Char) : Except LayoutError Layout := do
  let (fill, alignment, cs) := takeAlignment layout
  let (sign, cs) := takeOneOf ['+', '-', ' '] cs
  let (zeroSign, cs) := takeOneOf ['z'] cs
  let (alternate, cs) := takeOneOf ['#'] cs
  let (zero, cs) := if fill.isSome then (none, cs) else takeOneOf ['0'] cs
  let (width, cs) ← takeIndex cs
  let (separator, cs) ← takeSeparator cs
  let (precision, cs) ← takePrecision cs
  readPresentation layout separator cs
  if let some s := sign then throw (.sign s)
  if zeroSign.isSome then throw .zeroSign
  if alternate.isSome then throw .alternate
  if alignment = some .afterSign then throw .afterSign
  return {
    fill := (fill.or zero).getD ' '
    alignment := alignment.getD .left
    width := width.getD 0
    precision := precision }

/-- Fits a text into its column. -/
def Layout.apply (layout : Layout) (cs : List Char) : List Char :=
  let cs :=
    match layout.precision with
    | some n => cs.take n
    | none => cs
  let missing := layout.width - cs.length
  let before :=
    match layout.alignment with
    | .left => 0
    | .right | .afterSign => missing
    | .center => missing / 2
  List.replicate before layout.fill ++ cs ++ List.replicate (missing - before) layout.fill

end Text
end LetPoly
