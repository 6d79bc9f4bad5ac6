import LetPoly.Bindings
import LetPoly.Expr
import LetPoly.Expr.Printer
import LetPoly.Text.Decimal

/-!
# Values

The results of evaluation.  A closure holds the values of the names that its body uses.
-/

namespace LetPoly

/-- The result of evaluating an expression. -/
inductive Value where
  /-- An integer. -/
  | int (value : Int)
  /-- A truth value. -/
  | bool (value : Bool)
  /-- A list. -/
  | list (elements : List Value)
  /-- A pair. -/
  | pair (first second : Value)
  /-- A function with the values of the names that its body uses. -/
  | closure (parameter : String) (body : Expr) (captured : List (String × Value))
  /-- A missing value. -/
  | hole
deriving Inhabited

/-- The values of names; the first binding of a name counts. -/
abbrev Values :=
  List (String × Value)

namespace Value

mutual

/-- The text of a value. -/
def render : Value → Except Text.DigitError String
  | int value => Text.writeInt value
  | bool value => .ok (Expr.boolText value)
  | list elements => do
      return "[" ++ " ".intercalate (← renderList elements) ++ "]"
  | pair first second => do
      let a ← first.render
      let b ← second.render
      return "(pair " ++ a ++ " " ++ b ++ ")"
  | closure _ _ _ => .ok "<<closure>>"
  | hole => .ok "None"

/-- The texts of some values. -/
def renderList : List Value → Except Text.DigitError (List String)
  | [] => .ok []
  | v :: rest => do
      let text ← v.render
      let texts ← renderList rest
      return text :: texts

end

end Value

end LetPoly
