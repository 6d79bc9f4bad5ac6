import LetPoly.OrderedSet
import LetPoly.Primitive

/-!
# Expressions

The expression trees shared by the reader, the printer, the checker and the evaluator,
with definitions and programs, and the names that an expression uses without binding
them.

Main results:

- Theorem {lit}`apps_spine`: an expression is the application of its head to its
  arguments.
-/

namespace LetPoly

/-- An expression of the language. -/
inductive Expr where
  /-- A name. -/
  | var (name : String)
  /-- The application of a function to one argument. -/
  | app (function argument : Expr)
  /-- A function of one parameter. -/
  | lam (parameter : String) (body : Expr)
  /-- A local definition. -/
  | letIn (name : String) (value body : Expr)
  /-- An integer literal. -/
  | int (value : Int)
  /-- A truth value. -/
  | bool (value : Bool)
  /-- A choice between two branches. -/
  | ifThenElse (test onTrue onFalse : Expr)
  /-- The fixed point of a function. -/
  | fix (body : Expr)
  /-- A list literal. -/
  | list (elements : List Expr)
  /-- A built-in operator. -/
  | prim (primitive : Primitive)
  /-- A missing part: it cannot be checked, printed or evaluated. -/
  | hole
deriving BEq, Inhabited

/-- A definition of a name at the top of a program. -/
structure Definition where
  /-- The defined name. -/
  name : String
  /-- The expression that the name stands for. -/
  value : Expr
deriving BEq, Inhabited

/-- A program: definitions, each of which sees those before it, and a body that sees
them all. -/
structure Program where
  /-- The definitions, in order. -/
  definitions : List Definition
  /-- The expression whose type and value are the program's. -/
  body : Expr
deriving BEq, Inhabited

namespace Expr

/-- The curried application of a function to some arguments. -/
def apps (function : Expr) (arguments : List Expr) : Expr :=
  arguments.foldl app function

/-- The head of a curried application. -/
def head : Expr → Expr
  | app function _ => function.head
  | e => e

/-- The arguments of a curried application, from left to right. -/
def arguments : Expr → List Expr
  | app function argument => function.arguments ++ [argument]
  | _ => []

/-- An expression is the application of its head to its arguments. -/
theorem apps_spine (e : Expr) : e.head.apps e.arguments = e := by
  fun_induction arguments e with
  | case1 function argument ih =>
      simp only [head, apps, List.foldl_append, List.foldl_cons, List.foldl_nil]
      rw [show function.arguments.foldl app function.head = function from ih]
  | case2 e h =>
      rw [head]
      · rfl
      · exact h

mutual

/-- The names that an expression uses and does not bind, in order of first use. -/
def freeVars : Expr → OrderedSet String
  | var name => .singleton name
  | app function argument => function.freeVars ∪ argument.freeVars
  | lam parameter body => body.freeVars.erase parameter
  | letIn name value body => value.freeVars ∪ body.freeVars.erase name
  | int _ | bool _ | prim _ | hole => ∅
  | ifThenElse test onTrue onFalse => test.freeVars ∪ onTrue.freeVars ∪ onFalse.freeVars
  | fix body => body.freeVars
  | list elements => freeVarsList elements

/-- The names that some expressions use and do not bind. -/
def freeVarsList : List Expr → OrderedSet String
  | [] => ∅
  | e :: rest => e.freeVars ∪ freeVarsList rest

end

mutual

/-- Whether a part of the expression is missing. -/
def hasHole : Expr → Bool
  | var _ | int _ | bool _ | prim _ => false
  | app function argument => function.hasHole || argument.hasHole
  | lam _ body => body.hasHole
  | letIn _ value body => value.hasHole || body.hasHole
  | ifThenElse test onTrue onFalse => test.hasHole || onTrue.hasHole || onFalse.hasHole
  | fix body => body.hasHole
  | list elements => hasHoleList elements
  | hole => true

/-- Whether a part of some expressions is missing. -/
def hasHoleList : List Expr → Bool
  | [] => false
  | e :: rest => e.hasHole || hasHoleList rest

end

end Expr

/-- The local definitions that a program's definitions amount to. -/
def Program.toLets (program : Program) : Expr :=
  program.definitions.foldr (fun d body => .letIn d.name d.value body) program.body

end LetPoly
