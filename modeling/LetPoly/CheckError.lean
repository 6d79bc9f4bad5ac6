import LetPoly.Expr.Describe
import LetPoly.Subst

/-!
# What a check can find

A {lit}`TypeError` says what is wrong with a program; it is reported to whoever wrote the
program.  A {lit}`Fault` says that the checker was given something outside its domain: a
quantified type where a type belongs, a scheme that is not closed, a missing part.
-/

namespace LetPoly

/-- What is wrong with a program. -/
inductive TypeError (κ : Type) where
  /-- Two types are built differently. -/
  | clash (left right : Ty κ)
  /-- A variable would have to stand for a type that contains it. -/
  | infinite (name : String) (type : Ty κ)
  /-- Two sequences of types have different lengths. -/
  | lengths (lefts rights : List (Ty κ))
  /-- Constraints were left over. -/
  | ambiguous (constraints : List (Constraint κ))
  /-- A name has no type. -/
  | unbound (name : String)
deriving DecidableEq, Inhabited

/-- What the checker cannot work with. -/
inductive Fault (κ : Type) where
  /-- A quantified type was to be unified. -/
  | notUnifiable (type : Ty κ)
  /-- A quantified variable does not occur in the body of its scheme. -/
  | unusedVariable (scheme : Scheme κ) (name : String)
  /-- A variable of a scheme that should be closed is not quantified. -/
  | freeVariable (scheme : Scheme κ) (name : String)
  /-- A quantified type was to be renamed. -/
  | notNormalizable (type : Ty κ)
  /-- A part of an expression is missing. -/
  | hole
  /-- A missing value was to be typed. -/
  | valueHole
  /-- The type of a literal was asked of something else. -/
  | notLiteral (expression : Expr)
deriving Inhabited

/-- Why a check does not give an answer. -/
inductive CheckError (κ : Type) where
  /-- The program is wrong. -/
  | rejected (error : TypeError κ)
  /-- The checker was used outside its domain. -/
  | broken (fault : Fault κ)
deriving Inhabited

/-- The outcome of a check. -/
abbrev Checked (κ : Type) :=
  Except (CheckError κ)

variable {κ : Type}

namespace TypeError

/-- The name of a kind of type error. -/
def kind : TypeError κ → String
  | clash _ _ => "UnificationError"
  | infinite _ _ => "InfiniteTypeError"
  | lengths _ _ => "UnificationMismatchError"
  | ambiguous _ => "AmbiguousConstraintsError"
  | unbound _ => "NameError"

/-- The number of some types and the types themselves. -/
private def countedTypes (types : List (Ty κ)) : String :=
  toString types.length ++ " types (" ++ ", ".intercalate (types.map Ty.render) ++ ")"

/-- The wording of a type error. -/
def message : TypeError κ → String
  | clash left right => "cannot unify " ++ left.render ++ " with " ++ right.render
  | infinite v type =>
      v ++ " cannot be bound to " ++ type.render ++
        " because it would form an infinite type"
  | lengths lefts rights =>
      "cannot unify " ++ countedTypes lefts ++ " with " ++ countedTypes rights
  | ambiguous constraints =>
      "ambiguous constraints: " ++ ", ".intercalate (constraints.map Constraint.render)
  | unbound name => "name " ++ Text.quoted name ++ " not previously defined"

/-- The line that reports a type error. -/
def report (error : TypeError κ) : String :=
  error.kind ++ ": " ++ error.message

/-- Whether the error is about types rather than about a name. -/
def isAboutTypes : TypeError κ → Bool
  | unbound _ => false
  | _ => true

/-- The description of a type error, for the kinds that have one. -/
def describe? : TypeError κ → Option String
  | clash left right =>
      some ("UnificationError(" ++ left.describe ++ ", " ++ right.describe ++ ")")
  | infinite v type =>
      some ("InfiniteTypeError(" ++ Ty.describeVar v ++ ", " ++ type.describe ++ ")")
  | unbound name => some ("NameError(" ++ Text.quoted name ++ ")")
  | lengths _ _ | ambiguous _ => none

end TypeError

namespace Fault

/-- The wording of a fault. -/
def message : Fault κ → String
  | notUnifiable type =>
      type.describe ++ " is not a type the solver knows how to unify"
  | unusedVariable scheme v => v ++ " does not occur in the body of " ++ scheme.render
  | freeVariable scheme v => v ++ " is not in the signature of " ++ scheme.render
  | notNormalizable type => type.describe ++ " cannot be normalized"
  | hole => "don't know how to handle 'None'"
  | valueHole => "don't know how to type the value 'None'"
  | notLiteral expression =>
      "don't know how to handle literal '" ++ expression.describe ++ "'"

end Fault

end LetPoly
