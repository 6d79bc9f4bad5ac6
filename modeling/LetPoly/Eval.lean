import LetPoly.Fresh
import LetPoly.Value

/-!
# Evaluation

Evaluation is strict and goes from left to right.  A function evaluates to a closure over
the names that its body uses.  An operator that is applied to all its arguments is carried
out directly; used in any other way it becomes a function first, one closure for each
argument.  A fixed point applies its function to a closure that unrolls the next step only
when it is called.

Evaluation is given a limit on how deep it may nest.
-/

namespace LetPoly

/-- Why evaluation does not give a value. -/
inductive EvalError where
  /-- A name has no value. -/
  | unbound (name : String)
  /-- Something that is not a function was applied. -/
  | notFunction (value : Value)
  /-- The test of a choice is not a truth value. -/
  | testNotBool (value : Value)
  /-- An operator was given an argument of the wrong kind. -/
  | wrongArgument (primitive : Primitive) (value : Value)
  /-- The limit on nesting was reached. -/
  | tooDeep
  /-- A part of the expression is missing. -/
  | hole
  /-- A part of a function's body is missing. -/
  | holeInBody
  /-- An operator was given too few arguments. -/
  | notApplicable (primitive : Primitive)
deriving Inhabited

/-- The wording of an evaluation error.  It quotes values, so it may fail where a value has
no text. -/
def EvalError.message : EvalError → Except Text.DigitError String
  | unbound name => .ok ("name '" ++ name ++ "' has no value")
  | notFunction value => do return (← value.render) ++ " is not a function"
  | testNotBool value => do return "the test of if evaluated to " ++ (← value.render)
  | wrongArgument primitive value => do
      return primitive.symbol ++ " cannot be applied to " ++ (← value.render)
  | tooDeep => .ok "evaluation nested too deeply"
  | hole => .ok "don't know how to evaluate 'None'"
  | holeInBody => .ok "'NoneType' object has no attribute 'children'"
  | notApplicable primitive => .ok ("don't know how to apply '" ++ primitive.symbol ++ "'")

/-- Evaluation, with the number of the last parameter name that was given out. -/
abbrev Eval :=
  StateT Int (Except EvalError)

namespace Eval

/-- Takes the next parameter name. -/
def freshParameter : Eval String := do
  let number := (← get) + 1
  set number
  return parameterName number

/-- Takes the given number of parameter names. -/
def freshParameters : Nat → Eval (List String)
  | 0 => return []
  | n + 1 => do
      let first ← freshParameter
      let rest ← freshParameters n
      return first :: rest

/-- The operator and the arguments of an application that gives an operator at least as
many arguments as it takes. -/
def saturated? (e : Expr) : Option (Primitive × List Expr) :=
  match e.head, e.arguments with
  | .prim p, first :: rest =>
      if p.arity ≤ rest.length + 1 then some (p, first :: rest) else none
  | _, _ => none

/-- The names that an expression uses and does not bind; they are not known while a part of
the expression is missing. -/
def usedNames (e : Expr) : Except EvalError (OrderedSet String) :=
  if e.hasHole then .error .holeInBody else .ok e.freeVars

/-- The bindings of some names in an environment. -/
def restrict (env : Values) (names : OrderedSet String) : Values :=
  names.toList.filterMap fun x => (env.lookup x).map fun v => (x, v)

/-- The closure of a function in an environment: it holds the values of the names that the
body uses, the parameter apart. -/
def close (env : Values) (parameter : String) (body : Expr) : Eval Value := do
  let names ← usedNames body
  return .closure parameter body (restrict env (names.erase parameter))

/-- An operator as a function: one closure for each argument. -/
def wrap (p : Primitive) : Eval Value := do
  match ← freshParameters p.arity with
  | [] => return .list []
  | first :: rest =>
      let body := (Expr.prim p).apps ((first :: rest).map .var)
      return .closure first (rest.foldr .lam body) []

/-! ## Arguments of operators -/

/-- The argument of an operator as an integer. -/
def expectInt (p : Primitive) : Value → Eval Int
  | .int n => return n
  | v => throw (.wrongArgument p v)

/-- The argument of an operator as a list. -/
def expectList (p : Primitive) : Value → Eval (List Value)
  | .list elements => return elements
  | v => throw (.wrongArgument p v)

/-- The argument of an operator as a pair. -/
def expectPair (p : Primitive) : Value → Eval (Value × Value)
  | .pair first second => return (first, second)
  | v => throw (.wrongArgument p v)

section Step

/-! ## One level of evaluation

The definitions of this section evaluate the parts of an expression by a given function. -/

variable (evaluate : Values → Expr → Eval Value)

/-- Applies a function to an argument. -/
def apply : Value → Value → Eval Value
  | .closure parameter body env, argument => evaluate ((parameter, argument) :: env) body
  | function, _ => throw (.notFunction function)

/-- Applies a function to arguments one after the other. -/
def applyAll (function : Value) : List Value → Eval Value
  | [] => return function
  | argument :: rest => do
      let result ← apply evaluate function argument
      applyAll result rest

/-- Evaluates expressions from left to right. -/
def evaluateAll (env : Values) : List Expr → Eval (List Value)
  | [] => return []
  | e :: rest => do
      let first ← evaluate env e
      let others ← evaluateAll env rest
      return first :: others

/-- Applies a function to every element of a list. -/
def mapList (function : Value) : List Value → Eval (List Value)
  | [] => return []
  | element :: rest => do
      let first ← apply evaluate function element
      let others ← mapList function rest
      return first :: others

/-- Folds a list from the left. -/
def foldList (function accumulator : Value) : List Value → Eval Value
  | [] => return accumulator
  | element :: rest => do
      let partially ← apply evaluate function accumulator
      let next ← apply evaluate partially element
      foldList function next rest

/-- Carries out an operator on exactly the arguments it takes. -/
def applyPrimitive : Primitive → List Value → Eval Value
  | .nil, [] => return .list []
  | .add, [a, b] => do
      let m ← expectInt .add a
      let n ← expectInt .add b
      return .int (m + n)
  | .sub, [a, b] => do
      let m ← expectInt .sub a
      let n ← expectInt .sub b
      return .int (m - n)
  | .mul, [a, b] => do
      let m ← expectInt .mul a
      let n ← expectInt .mul b
      return .int (m * n)
  | .eql, [a, b] => do
      let m ← expectInt .eql a
      let n ← expectInt .eql b
      return .bool (m == n)
  | .null, [items] => do
      return .bool (← expectList .null items).isEmpty
  | .map, [function, items] => do
      let elements ← expectList .map items
      return .list (← mapList evaluate function elements)
  | .foldl, [function, accumulator, items] => do
      let elements ← expectList .foldl items
      foldList evaluate function accumulator elements
  | .pair, [first, second] => return .pair first second
  | .fst, [pair] => do return (← expectPair .fst pair).1
  | .snd, [pair] => do return (← expectPair .snd pair).2
  | .cons, [first, rest] => do return .list (first :: (← expectList .cons rest))
  | p, _ => throw (.notApplicable p)

/-- Evaluates an expression that is not a saturated application of an operator. -/
def evaluateForm (env : Values) : Expr → Eval Value
  | .int value => return .int value
  | .bool value => return .bool value
  | .var name =>
      match env.lookup name with
      | some value => return value
      | none => throw (.unbound name)
  | .lam parameter body => close env parameter body
  | .letIn name value body => do
      let v ← evaluate env value
      evaluate ((name, v) :: env) body
  | .ifThenElse test onTrue onFalse => do
      match ← evaluate env test with
      | .bool true => evaluate env onTrue
      | .bool false => evaluate env onFalse
      | v => throw (.testNotBool v)
  | .list elements => do return .list (← evaluateAll evaluate env elements)
  | .prim p => wrap p
  | .app function argument => do
      let f ← evaluate env function
      let a ← evaluate env argument
      apply evaluate f a
  | .fix body => do
      let function ← evaluate env body
      let parameter ← freshParameter
      let unrolled ← close env parameter (.app (.fix body) (.var parameter))
      apply evaluate function unrolled
  | .hole => throw .hole

/-- Evaluates an expression. -/
def evaluateStep (env : Values) (e : Expr) : Eval Value :=
  match saturated? e with
  | some (p, arguments) => do
      let values ← evaluateAll evaluate env arguments
      let result ← applyPrimitive evaluate p (values.take p.arity)
      applyAll evaluate result (values.drop p.arity)
  | none => evaluateForm evaluate env e

end Step

/-- Evaluates an expression, nesting evaluations at most as deep as the limit. -/
def evaluate : Nat → Values → Expr → Eval Value
  | 0, _, _ => throw .tooDeep
  | limit + 1, env, e => evaluateStep (evaluate limit) env e

end Eval

/-- The value of an expression in an environment, under a limit on nesting. -/
def Expr.eval (limit : Nat) (env : Values) (e : Expr) : Except EvalError Value :=
  (Eval.evaluate limit env e).run' 0

/-- Evaluates definitions in order, each with the values left by those before it. -/
def Definition.evalAll (limit : Nat) (values : Bindings Value) :
    List Definition → Except EvalError (Bindings Value)
  | [] => .ok values
  | d :: rest => do
      let v ← d.value.eval limit values.entries
      Definition.evalAll limit (values.insert d.name v) rest

/-- Evaluates a program: the values of its definitions and the value of its body. -/
def Program.eval (limit : Nat) (values : Bindings Value) (program : Program) :
    Except EvalError (Bindings Value × Value) := do
  let values ← Definition.evalAll limit values program.definitions
  return (values, ← program.body.eval limit values.entries)

end LetPoly
