import LetPoly.CheckError

/-!
# Fresh names

The checker numbers its type variables {lit}`t1`, {lit}`t2` and so on, and the evaluator
its parameters {lit}`#1`, {lit}`#2` and so on.  A counter holds the number that was given
out last.  The checker's counter keeps its value when a check fails.
-/

namespace LetPoly

/-- The name of the type variable with a number. -/
def typeVarName (number : Int) : String :=
  "t" ++ Text.decimal number

/-- The name of the parameter with a number.  No name in source text begins like this. -/
def parameterName (number : Int) : String :=
  "#" ++ Text.decimal number

/-- The description of a counter of type variables. -/
def describeTypeCounter (count : Int) : String :=
  "InferState(" ++ Text.decimal count ++ ")"

/-- The description of a counter of parameters. -/
def describeParameterCounter (count : Int) : String :=
  "EvalState(" ++ Text.decimal count ++ ")"

/-- A check that may take fresh type variables; the state is the number of the last. -/
abbrev Fresh (κ : Type) :=
  EStateM (CheckError κ) Int

variable {κ : Type}

namespace Fresh

/-- Takes the next type variable. -/
def var : Fresh κ (Ty κ) := do
  let number := (← get) + 1
  set number
  return .var (typeVarName number)

/-- A check that takes no fresh variables. -/
def lift {α : Type} : Checked κ α → Fresh κ α
  | .ok value => return value
  | .error error => throw error

/-- The outcome of a check and the counter after it. -/
def runFrom {α : Type} (check : Fresh κ α) (count : Int) : Checked κ α × Int :=
  match check.run count with
  | .ok value count => (.ok value, count)
  | .error error count => (.error error, count)

/-- Names numbered in sequence after a counter, each paired with a given variable. -/
def pairedWith : Int → List String → List (String × Ty κ)
  | _, [] => []
  | count, v :: rest => (v, .var (typeVarName (count + 1))) :: pairedWith (count + 1) rest

end Fresh

/-- Replaces the quantified variables of a scheme by fresh ones.  A variable that is
quantified more than once takes a fresh one each time and keeps the last. -/
def Scheme.instantiate (scheme : Scheme κ) : Fresh κ (Ty κ) := do
  let count ← get
  set (count + scheme.bound.length)
  return scheme.body.apply (.ofList (Fresh.pairedWith count scheme.bound))

end LetPoly
