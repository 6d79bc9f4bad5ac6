import LetPoly.OrderedSet
import LetPoly.Text.Quoted

/-!
# Types, schemes and constraints

Types are built from variables, constants, functions, lists and pairs.  A scheme quantifies
some variables of a type, and a constraint asks two types to be equal.

The parameter {lit}`κ` says whether a quantified type may also stand inside a type: each
such place carries a mark of type {lit}`κ`.  With {lit}`Empty` there is none, and
{lit}`MonoTy` is the type of the types that the checker works with.  With an inhabited
{lit}`κ` quantified types can be carried around, printed and compared, and the checker
refuses to solve for them.
-/

namespace LetPoly

/-- A type, which may have quantified types inside where {lit}`κ` has marks for them. -/
inductive Ty (κ : Type) where
  /-- A type variable. -/
  | var (name : String)
  /-- A base type. -/
  | con (name : String)
  /-- The type of functions. -/
  | fn (argument result : Ty κ)
  /-- The type of lists. -/
  | list (element : Ty κ)
  /-- The type of pairs. -/
  | pair (first second : Ty κ)
  /-- A quantified type in the place of a type. -/
  | quantified (mark : κ) (bound : List String) (body : Ty κ)
deriving DecidableEq, Inhabited

/-- A type without quantifiers. -/
abbrev MonoTy :=
  Ty Empty

/-- A type scheme: a body with some of its variables quantified. -/
structure Scheme (κ : Type) where
  /-- The quantified variables. -/
  bound : List String
  /-- The type that is quantified. -/
  body : Ty κ
deriving DecidableEq, Inhabited

/-- The demand that two types be equal. -/
structure Constraint (κ : Type) where
  /-- The left side. -/
  left : Ty κ
  /-- The right side. -/
  right : Ty κ
deriving DecidableEq, Inhabited

variable {κ : Type}

namespace Ty

/-- The type of integers. -/
def int : Ty κ :=
  con "Int"

/-- The type of truth values. -/
def bool : Ty κ :=
  con "Bool"

/-- Whether the type is a function type. -/
def isFn : Ty κ → Bool
  | fn _ _ => true
  | _ => false

/-- The curried function type of some types, of which the last is the result.  There is
none without types. -/
def function? : List (Ty κ) → Option (Ty κ)
  | [] => none
  | [result] => some result
  | argument :: rest => (function? rest).map (fn argument)

/-- The wording for a function type of no types. -/
def noTypesMessage : String :=
  "a function type needs at least one type"

/-- The variables that are free in a type, in order of first occurrence. -/
def freeVars : Ty κ → OrderedSet String
  | var name => .singleton name
  | con _ => ∅
  | fn argument result => argument.freeVars ∪ result.freeVars
  | list element => element.freeVars
  | pair first second => first.freeVars ∪ second.freeVars
  | quantified _ bound body => body.freeVars.filter fun a => !bound.contains a

/-! ## Text -/

/-- The text of a quantifier in front of a body. -/
def forallText (bound : List String) (body : String) : String :=
  if bound.isEmpty then body
  else "forall " ++ " ".intercalate bound ++ ". " ++ body

/-- The text of a type.  Arrows group to the right. -/
def render : Ty κ → String
  | var name => name
  | con name => name
  | fn argument result =>
      (if argument.isFn then "(" ++ argument.render ++ ")" else argument.render) ++
        " -> " ++ result.render
  | list element => "[" ++ element.render ++ "]"
  | pair first second => "(" ++ first.render ++ ", " ++ second.render ++ ")"
  | quantified _ bound body => forallText bound body.render

/-- The description of a variable. -/
def describeVar (name : String) : String :=
  "TypeVariable(" ++ Text.quoted name ++ ")"

/-- The description of a quantifier in front of a described body. -/
def describeForall (bound : List String) (body : String) : String :=
  "ForAll([" ++ ", ".intercalate (bound.map describeVar) ++ "], " ++ body ++ ")"

/-- The description of a type, which spells out how it is built. -/
def describe : Ty κ → String
  | var name => describeVar name
  | con name => "TypeConstant(" ++ Text.quoted name ++ ")"
  | fn argument result =>
      "FunctionType(" ++ argument.describe ++ ", " ++ result.describe ++ ")"
  | list element => "ListType(" ++ element.describe ++ ")"
  | pair first second => "PairType(" ++ first.describe ++ ", " ++ second.describe ++ ")"
  | quantified _ bound body => describeForall bound body.describe

end Ty

namespace Scheme

/-- The scheme that quantifies nothing. -/
def mono (body : Ty κ) : Scheme κ where
  bound := []
  body := body

/-- The variables that are free in a scheme, in order of first occurrence. -/
def freeVars (scheme : Scheme κ) : OrderedSet String :=
  scheme.body.freeVars.filter fun a => !scheme.bound.contains a

/-- A scheme is closed when no variable is free in it. -/
def Closed (scheme : Scheme κ) : Prop :=
  ∀ a, ¬ a ∈ scheme.freeVars

/-- The text of a scheme. -/
def render (scheme : Scheme κ) : String :=
  Ty.forallText scheme.bound scheme.body.render

/-- The description of a scheme. -/
def describe (scheme : Scheme κ) : String :=
  Ty.describeForall scheme.bound scheme.body.describe

end Scheme

namespace Constraint

/-- The text of a constraint. -/
def render (c : Constraint κ) : String :=
  c.left.render ++ " ~ " ++ c.right.render

/-- The description of a constraint. -/
def describe (c : Constraint κ) : String :=
  "Constraint(" ++ c.left.describe ++ ", " ++ c.right.describe ++ ")"

end Constraint

end LetPoly
