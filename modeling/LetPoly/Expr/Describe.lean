import LetPoly.Expr
import LetPoly.Text.Decimal
import LetPoly.Text.Quoted

/-!
# Describing expressions

A description of an expression spells out the kind of every node and the label of every
part.  It is what a refusal quotes when it is given an expression of the wrong kind.
-/

namespace LetPoly
namespace Expr

/-- A sequence in parentheses, with a comma after a single member. -/
def describeTuple : List String → String
  | [only] => "(" ++ only ++ ",)"
  | texts => "(" ++ ", ".intercalate texts ++ ")"

mutual

/-- The description of an expression. -/
def describe : Expr → String
  | var name => "VariableNode(name=" ++ Text.quoted name ++ ")"
  | app function argument =>
      "ApplicationNode(function=" ++ function.describe ++ ", argument=" ++
        argument.describe ++ ")"
  | lam parameter body =>
      "LambdaNode(parameter=" ++ Text.quoted parameter ++ ", body=" ++ body.describe ++ ")"
  | letIn name value body =>
      "LetNode(name=" ++ Text.quoted name ++ ", value=" ++ value.describe ++ ", body=" ++
        body.describe ++ ")"
  | int value => "IntegerNode(value=" ++ Text.decimal value ++ ")"
  | bool value => "BooleanNode(value=" ++ (if value then "True" else "False") ++ ")"
  | ifThenElse test onTrue onFalse =>
      "IfNode(test=" ++ test.describe ++ ", then=" ++ onTrue.describe ++ ", else_=" ++
        onFalse.describe ++ ")"
  | fix body => "FixNode(body=" ++ body.describe ++ ")"
  | list elements => "ListNode(elements=" ++ describeTuple (describeList elements) ++ ")"
  | prim primitive =>
      "PrimitiveNode(primitive=<Primitive." ++ primitive.label ++ ": " ++
        Text.quoted primitive.symbol ++ ">)"
  | hole => "None"

/-- The descriptions of some expressions. -/
def describeList : List Expr → List String
  | [] => []
  | e :: rest => e.describe :: describeList rest

end

end Expr
end LetPoly
