import LetPoly.Parser
import LetPoly.Text.Blank
import LetPoly.Text.Lines

/-!
# Reports of parse errors

A report has three lines: what was expected and where, the source line, and a caret under
the place.
-/

namespace LetPoly
namespace ParseError

/-- What was expected, in words. -/
def expectedText (error : ParseError) : String :=
  match error.expected with
  | [only] => only
  | several => "one of " ++ ", ".intercalate several

/-- The report of a parse error in a text. -/
def message (error : ParseError) (text : String) : String :=
  let position := Text.positionAt text error.index
  let line := Text.trimEnd (Text.lineAt text position.line)
  "Expected " ++ error.expectedText ++ " at line " ++ toString (position.line + 1) ++
    ", column " ++ toString (position.column + 1) ++ ":\n" ++
    String.ofList line ++ "\n" ++
    String.ofList (List.replicate position.column ' ') ++ "^"

end ParseError
end LetPoly
