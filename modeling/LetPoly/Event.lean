import LetPoly.Eval
import LetPoly.Infer

/-!
# What a run reports while it works

The checker and the evaluator can report their steps: the pairs of types that are unified,
the schemes of local definitions, the number of constraints and their solution, and the
scheme and value of every definition of a program.  The reports of a run that fails are
those made before the failure.

The steps are read off the functions that do the work, which know nothing of reports.

Main results:

- Theorem {lit}`solveSteps_snd`: following the solver step by step gives its outcome.
-/

namespace LetPoly

/-- One report. -/
inductive Event (κ : Type) where
  /-- Two types are about to be unified. -/
  | unifying (left right : Ty κ)
  /-- A local definition got its scheme. -/
  | generalized (name : String) (scheme : Scheme κ)
  /-- So many constraints were collected. -/
  | generated (count : Nat)
  /-- The constraints were solved. -/
  | solution (substitution : Subst κ)
  /-- A definition of a program got its scheme. -/
  | typed (name : String) (scheme : Scheme κ)
  /-- A definition of a program got its value. -/
  | valued (name : String) (value : Value)

/-- Where a report comes from. -/
structure Origin where
  /-- The name under which the report is logged. -/
  logger : String
  /-- The file that it names. -/
  file : String
  /-- The function that it names. -/
  function : String
deriving DecidableEq

variable {κ : Type}

namespace Event

/-- Where a report comes from. -/
def origin : Event κ → Origin
  | unifying _ _ => ⟨"poly.typecheck.unification", "unification.py", "solve"⟩
  | generalized _ _ => ⟨"poly.typecheck", "__init__.py", "infer"⟩
  | generated _ | solution _ => ⟨"poly.typecheck", "__init__.py", "infer_with_details"⟩
  | typed _ _ => ⟨"poly.typecheck", "__init__.py", "infer_program"⟩
  | valued _ _ => ⟨"poly.eval", "eval.py", "evaluate_program"⟩

/-- The wording of a report. -/
def message : Event κ → Except Text.DigitError String
  | unifying left right => .ok ("unifying " ++ left.render ++ " with " ++ right.render)
  | generalized name scheme => .ok ("generalized " ++ name ++ " to " ++ scheme.render)
  | generated count => .ok ("generated " ++ toString count ++ " constraints")
  | solution s => .ok ("solution: " ++ s.render)
  | typed name scheme => .ok (name ++ " : " ++ scheme.render)
  | valued name value => do return name ++ " = " ++ (← value.render)

end Event

section Solving

variable [DecidableEq κ]

namespace Constraint

/-- The steps of solving some constraints, with the outcome. -/
def solveSteps : List (Constraint κ) → List (Event κ) × Checked κ (List (Subst κ))
  | [] => ([], .ok [])
  | c :: rest =>
      match solveSteps rest with
      | (events, .ok found) =>
          let waiting := found.foldl Constraint.apply c
          (events ++ [.unifying waiting.left waiting.right], do
            let s ← waiting.left.unify waiting.right
            return found ++ [s])
      | (events, .error error) => (events, .error error)

/-- Following the solver step by step gives its outcome. -/
theorem solveSteps_snd (constraints : List (Constraint κ)) :
    (solveSteps constraints).2 = unifiers constraints := by
  induction constraints with
  | nil => rfl
  | cons c rest ih =>
      rw [solveSteps, unifiers, ← ih]
      rcases solveSteps rest with ⟨events, outcome⟩
      cases outcome <;> rfl

/-- The reports made while some constraints are solved. -/
def solveEvents (constraints : List (Constraint κ)) : List (Event κ) :=
  (solveSteps constraints).1

end Constraint

/-- What is reported after a check that succeeds; a check that fails ends the reports. -/
def Fresh.followedBy {α : Type} (check : Fresh κ α) (count : Int)
    (next : α → Int → List (Event κ)) : List (Event κ) :=
  match check.run count with
  | .ok value count => next value count
  | .error _ _ => []

mutual

/-- The reports made while the type of an expression is inferred, by the counter at the
start. -/
def Expr.inferEvents (env : Env κ) : Expr → Int → List (Event κ)
  | .int _, _ | .bool _, _ | .var _, _ | .prim _, _ | .hole, _ => []
  | .lam parameter body, count =>
      Fresh.var.followedBy count fun a count =>
        body.inferEvents (env.insert parameter (.mono a)) count
  | .app function argument, count =>
      function.inferEvents env count ++
        (function.infer env).followedBy count fun _ count => argument.inferEvents env count
  | .letIn name value body, count =>
      value.inferEvents env count ++
        (value.infer env).followedBy count fun v count =>
          Constraint.solveEvents v.constraints ++
            match v.bindIn env name with
            | .ok bodyEnv =>
                ((bodyEnv.get? name).map (Event.generalized name)).toList ++
                  body.inferEvents bodyEnv count
            | .error _ => []
  | .ifThenElse test onTrue onFalse, count =>
      test.inferEvents env count ++
        (test.infer env).followedBy count fun _ count =>
          onTrue.inferEvents env count ++
            (onTrue.infer env).followedBy count fun _ count => onFalse.inferEvents env count
  | .fix body, count => body.inferEvents env count
  | .list elements, count => Expr.inferEventsList env elements (count + 2)

/-- The reports made while the types of some expressions are inferred. -/
def Expr.inferEventsList (env : Env κ) : List Expr → Int → List (Event κ)
  | [], _ => []
  | e :: rest, count =>
      e.inferEvents env count ++
        (e.infer env).followedBy count fun _ count => Expr.inferEventsList env rest count

end

/-- The reports made while an expression is inferred and solved. -/
def Expr.inferenceEvents (e : Expr) (env : Env κ) : List (Event κ) :=
  e.inferEvents env 0 ++
    (e.infer env).followedBy 0 fun typed _ =>
      .generated typed.constraints.length :: Constraint.solveEvents typed.constraints ++
        match Constraint.solve typed.constraints with
        | .ok s => [.solution s]
        | .error _ => []

/-- The reports made while definitions are typed and then an expression. -/
def Definition.inferEvents (body : Expr) (env : Env κ) : List Definition → List (Event κ)
  | [] => body.inferenceEvents env
  | d :: rest =>
      d.value.inferenceEvents env ++
        match d.value.scheme env with
        | .ok scheme =>
            .typed d.name scheme ::
              Definition.inferEvents body (env.insert d.name scheme) rest
        | .error _ => []

/-- The reports made while a program is typed. -/
def Program.inferEvents (program : Program) (env : Env κ) : List (Event κ) :=
  Definition.inferEvents program.body env program.definitions

end Solving

/-- The reports made while definitions are evaluated. -/
def Definition.evalEvents (limit : Nat) (values : Bindings Value) :
    List Definition → List (Event κ)
  | [] => []
  | d :: rest =>
      match d.value.eval limit values.entries with
      | .ok v => .valued d.name v :: Definition.evalEvents limit (values.insert d.name v) rest
      | .error _ => []

end LetPoly
