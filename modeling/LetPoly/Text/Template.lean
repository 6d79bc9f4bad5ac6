import LetPoly.Text.Layout
import LetPoly.Text.Quoted

/-!
# Message templates

A template is a text with places for arguments in braces: an empty pair of braces takes
the next argument, a number takes the argument at that position, and a name takes the
argument of that name.  Doubled braces stand for themselves.  Numbered and unnumbered
places do not mix.  A place may pick a character of its argument, ask for it in quotes, and
give a layout, which is a template itself.

A template is filled in from left to right, so the first fault from the left is the one
that is told, be it in the template or in the arguments.
-/

namespace LetPoly
namespace Text

/-- Why a template cannot be filled in. -/
inductive TemplateError where
  /-- A template ends with an opening brace. -/
  | loneOpening
  /-- A closing brace has no partner. -/
  | loneClosing
  /-- A place is not closed. -/
  | unclosed
  /-- An opening brace stands in the name of a place. -/
  | openingInName
  /-- The template ends where a conversion is due. -/
  | noConversion
  /-- A conversion is longer than one character. -/
  | longConversion
  /-- A place is not closed after its layout. -/
  | unclosedLayout
  /-- There is no such conversion. -/
  | conversion (c : Char)
  /-- A number has too many digits. -/
  | longNumber
  /-- A numbered place follows an unnumbered one. -/
  | numbered
  /-- An unnumbered place follows a numbered one. -/
  | unnumbered
  /-- There is no argument at a position. -/
  | noArgument (index : Nat)
  /-- There is no argument of a name. -/
  | noName (name : String)
  /-- A part of an argument is asked for without saying which. -/
  | noPart
  /-- An index is not closed. -/
  | unclosedIndex
  /-- An index is followed by something that selects no part. -/
  | afterIndex
  /-- Texts have no parts with names. -/
  | namedPart (name : String)
  /-- A text is shorter than an index says. -/
  | index
  /-- An index is not a number. -/
  | textIndex
  /-- A layout is refused. -/
  | layout (error : LayoutError)
  /-- The layout of a layout has places. -/
  | tooDeep
deriving DecidableEq

/-- The wording of a template error. -/
def TemplateError.message : TemplateError → String
  | loneOpening => "Single '\x7b' encountered in format string"
  | loneClosing => "Single '\x7d' encountered in format string"
  | unclosed => "expected '\x7d' before end of string"
  | openingInName => "unexpected '\x7b' in field name"
  | noConversion => "end of string while looking for conversion specifier"
  | longConversion => "expected ':' after conversion specifier"
  | unclosedLayout => "unmatched '\x7b' in format spec"
  | conversion c => "Unknown conversion specifier " ++ namedChar 127 c
  | longNumber => LayoutError.longNumber.message
  | numbered =>
      "cannot switch from automatic field numbering to manual field specification"
  | unnumbered =>
      "cannot switch from manual field specification to automatic field numbering"
  | noArgument n =>
      "Replacement index " ++ toString n ++ " out of range for positional args tuple"
  | noName name => quoted name
  | noPart => "Empty attribute in format string"
  | unclosedIndex => "Missing ']' in format string"
  | afterIndex => "Only '.' or '[' may follow ']' in format field specifier"
  | namedPart name => "'str' object has no attribute '" ++ name ++ "'"
  | index => "string index out of range"
  | textIndex => "string indices must be integers, not 'str'"
  | layout error => error.message
  | tooDeep => "Max string recursion exceeded"

/-! ## Reading -/

/-- A place for an argument. -/
structure Place where
  /-- The argument, and the part of it. -/
  name : List Char
  /-- The conversion of the argument. -/
  conversion : Option Char
  /-- The layout, a template. -/
  layout : List Char
deriving DecidableEq

/-- A part of a template. -/
inductive Piece where
  /-- A character that stands for itself. -/
  | char (c : Char)
  /-- A place for an argument. -/
  | place (place : Place)
deriving DecidableEq

/-- Where the reading of a template is.  What was read of a place is kept last character
first. -/
inductive ReadState where
  /-- Outside of places. -/
  | outside
  /-- In the name of a place. -/
  | name (read : List Char)
  /-- In the name of a place, between brackets. -/
  | bracket (read : List Char)
  /-- Behind the sign of a conversion. -/
  | conversion (name : List Char)
  /-- Behind a conversion. -/
  | converted (name : List Char) (conversion : Char)
  /-- In a layout, so many braces deep. -/
  | layout (name : List Char) (conversion : Option Char) (depth : Nat) (read : List Char)

/-- The error of a template that ends too early. -/
def ReadState.atEnd : ReadState → Option TemplateError
  | outside => none
  | name _ | bracket _ => some .unclosed
  | conversion _ => some .noConversion
  | converted _ _ | layout _ _ _ _ => some .unclosedLayout

/-- Puts a piece in front of what was read behind it. -/
def withPiece (piece : Piece) (rest : List Piece × Option TemplateError) :
    List Piece × Option TemplateError :=
  (piece :: rest.1, rest.2)

/-- Reads a template: its pieces up to the first fault in it, and that fault. -/
def readPieces : ReadState → List Char → List Piece × Option TemplateError
  | state, [] => ([], state.atEnd)
  | .outside, c :: rest =>
      match c, rest with
      | '\x7b', '\x7b' :: rest => withPiece (.char '\x7b') (readPieces .outside rest)
      | '\x7d', '\x7d' :: rest => withPiece (.char '\x7d') (readPieces .outside rest)
      | '\x7b', [] => ([], some .loneOpening)
      | '\x7b', rest => readPieces (.name []) rest
      | '\x7d', _ => ([], some .loneClosing)
      | c, rest => withPiece (.char c) (readPieces .outside rest)
  | .name read, c :: rest =>
      if c = '\x7b' then ([], some .openingInName)
      else if c = '\x7d' then
        withPiece (.place ⟨read.reverse, none, []⟩) (readPieces .outside rest)
      else if c = ':' then readPieces (.layout read.reverse none 1 []) rest
      else if c = '!' then readPieces (.conversion read.reverse) rest
      else if c = '[' then readPieces (.bracket (c :: read)) rest
      else readPieces (.name (c :: read)) rest
  | .bracket read, c :: rest =>
      if c = ']' then readPieces (.name (c :: read)) rest
      else readPieces (.bracket (c :: read)) rest
  | .conversion name, c :: rest => readPieces (.converted name c) rest
  | .converted name conversion, c :: rest =>
      if c = '\x7d' then
        withPiece (.place ⟨name, some conversion, []⟩) (readPieces .outside rest)
      else if c = ':' then readPieces (.layout name (some conversion) 1 []) rest
      else ([], some .longConversion)
  | .layout name conversion depth read, c :: rest =>
      if c = '\x7d' then
        if depth ≤ 1 then
          withPiece (.place ⟨name, conversion, read.reverse⟩) (readPieces .outside rest)
        else readPieces (.layout name conversion (depth - 1) (c :: read)) rest
      else if c = '\x7b' then readPieces (.layout name conversion (depth + 1) (c :: read)) rest
      else readPieces (.layout name conversion depth (c :: read)) rest

/-! ## Arguments -/

/-- The arguments of a template. -/
structure Arguments where
  /-- Those by position. -/
  positional : List String
  /-- Those by name. -/
  named : List (String × String)

/-- How the places of a template are numbered, as far as that has shown. -/
inductive Numbering where
  /-- There was no place with a number or without a name. -/
  | unsettled
  /-- The places are numbered. -/
  | manual
  /-- The places are not numbered, and the next takes the argument at this position. -/
  | automatic (next : Nat)
deriving DecidableEq

/-- Reads on in a name of which the digits so far stand for a number.  The first character
that is no digit shows that the name is no number, unless the digits before it are too
many already. -/
def numberFrom (soFar : Nat) : List Char → Except TemplateError (Option Nat)
  | [] => .ok (some soFar)
  | c :: rest =>
      match digitValue? c with
      | none => .ok none
      | some digit =>
          if 10 * soFar + digit ≤ maxIndex then numberFrom (10 * soFar + digit) rest
          else .error .longNumber

/-- The number that a name consists of. -/
def numberOf (name : List Char) : Except TemplateError (Option Nat) :=
  if name.isEmpty then .ok none else numberFrom 0 name

/-- The argument at a position. -/
def Arguments.nth (arguments : Arguments) (index : Nat) : Except TemplateError String :=
  match arguments.positional[index]? with
  | some text => .ok text
  | none => .error (.noArgument index)

/-- The argument that a name stands for, and the numbering from there on. -/
def Arguments.find (arguments : Arguments) (numbering : Numbering) (name : List Char) :
    Except TemplateError (String × Numbering) := do
  if name.isEmpty then
    match numbering with
    | .manual => throw .unnumbered
    | .unsettled => return (← arguments.nth 0, .automatic 1)
    | .automatic next => return (← arguments.nth next, .automatic (next + 1))
  else
    match ← numberOf name with
    | some index =>
        match numbering with
        | .automatic _ => throw .numbered
        | _ => return (← arguments.nth index, .manual)
    | none =>
        match arguments.named.lookup (String.ofList name) with
        | some text => return (text, numbering)
        | none => throw (.noName (String.ofList name))

/-- Whether a character begins the choice of a part. -/
def beginsPart (c : Char) : Bool :=
  c = '.' || c = '['

/-- The character of a text that an index between brackets stands for. -/
def charAt (text : String) (index : List Char) : Except TemplateError String := do
  match ← numberOf index with
  | none => throw (if index.isEmpty then .noPart else .textIndex)
  | some n =>
      match text.toList[n]? with
      | some c => return String.singleton c
      | none => throw .index

/-- The part of a text that is chosen by the rest of a name.  The first argument holds the
index that is being read, last character first. -/
def choosePart (text : String) : Option (List Char) → List Char → Except TemplateError String
  | none, [] => .ok text
  | some _, [] => .error .unclosedIndex
  | none, c :: rest =>
      if c = '[' then choosePart text (some []) rest
      else if c = '.' then
        let name := rest.takeWhile (fun c => !beginsPart c)
        .error (if name.isEmpty then .noPart else .namedPart (String.ofList name))
      else .error .afterIndex
  | some index, c :: rest =>
      if c = ']' then do
        let chosen ← charAt text index.reverse
        choosePart chosen none rest
      else choosePart text (some (c :: index)) rest

/-- Converts an argument: as it is, in quotes, or in quotes with ASCII characters only. -/
def convert : Option Char → String → Except TemplateError String
  | none, text | some 's', text => .ok text
  | some 'r', text => .ok (quoted text)
  | some 'a', text =>
      .ok (String.ofList
        ((quoted text).toList.flatMap fun c => if c.toNat < 128 then [c] else codeEscape c))
  | some c, _ => .error (.conversion c)

/-! ## Filling in -/

/-- Fills in pieces one after the other, given how layouts are filled in. -/
def fillPieces (arguments : Arguments)
    (fillLayout : Numbering → List Char → Except TemplateError (String × Numbering)) :
    Numbering → List Piece → Except TemplateError (String × Numbering)
  | numbering, [] => .ok ("", numbering)
  | numbering, .char c :: rest => do
      let (text, numbering) ← fillPieces arguments fillLayout numbering rest
      return (String.singleton c ++ text, numbering)
  | numbering, .place place :: rest => do
      let (name, part) := place.name.span (fun c => !beginsPart c)
      let (argument, numbering) ← arguments.find numbering name
      let chosen ← choosePart argument none part
      let converted ← convert place.conversion chosen
      let (layout, numbering) ←
        if place.layout.contains '\x7b' then fillLayout numbering place.layout
        else pure (String.ofList place.layout, numbering)
      let fitted ←
        if layout.isEmpty then pure converted
        else do
          let layout ← (Layout.parse layout.toList).mapError .layout
          pure (String.ofList (layout.apply converted.toList))
      let (text, numbering) ← fillPieces arguments fillLayout numbering rest
      return (fitted ++ text, numbering)

/-- Fills in a template whose layouts are nested at most so deep. -/
def fillFrom (arguments : Arguments) :
    Nat → Numbering → List Char → Except TemplateError (String × Numbering)
  | 0, _, _ => .error .tooDeep
  | depth + 1, numbering, template => do
      let (pieces, fault) := readPieces .outside template
      let filled ← fillPieces arguments (fillFrom arguments depth) numbering pieces
      match fault with
      | some error => throw error
      | none => return filled

/-- Fills in a template.  Arguments that have no place are left out. -/
def fillTemplate (template : String) (arguments : Arguments) : Except TemplateError String := do
  let (text, _) ← fillFrom arguments 2 .unsettled template.toList
  return text

end Text
end LetPoly
