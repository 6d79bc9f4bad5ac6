import LetPoly.Fresh
import LetPoly.Polymorphism
import LetPoly.Unify

/-!
# Type inference

Inference walks through an expression and collects a type together with the constraints
under which the expression has it; solving the constraints gives the principal type.  The
value of a local definition is solved on its own and generalized, so that every use of
the name can be typed separately, and its constraints are kept for the surrounding
expression as well.

Current gaps:

- There is room for expressions and types of any depth, here and in unification.  Checking on a
  stack that is too small is a matter of batch runs.
-/

namespace LetPoly

variable {κ : Type}

/-- The type of a literal. -/
def Expr.literalType : Expr → Checked κ (Ty κ)
  | .int _ => .ok .int
  | .bool _ => .ok .bool
  | e => .error (.broken (.notLiteral e))

namespace Primitive

/-- The type of an operator, with fresh variables where it is polymorphic. -/
def type : Primitive → Fresh κ (Ty κ)
  | add | sub | mul => return .fn .int (.fn .int .int)
  | eql => return .fn .int (.fn .int .bool)
  | null => do
      let a ← Fresh.var
      return .fn (.list a) .bool
  | map => do
      let a ← Fresh.var
      let b ← Fresh.var
      return .fn (.fn a b) (.fn (.list a) (.list b))
  | foldl => do
      let a ← Fresh.var
      let b ← Fresh.var
      return .fn (.fn b (.fn a b)) (.fn b (.fn (.list a) b))
  | pair => do
      let a ← Fresh.var
      let b ← Fresh.var
      return .fn a (.fn b (.pair a b))
  | fst => do
      let a ← Fresh.var
      let b ← Fresh.var
      return .fn (.pair a b) a
  | snd => do
      let a ← Fresh.var
      let b ← Fresh.var
      return .fn (.pair a b) b
  | cons => do
      let a ← Fresh.var
      return .fn a (.fn (.list a) (.list a))
  | nil => return .list (← Fresh.var)

end Primitive

/-- A type and the constraints under which it holds. -/
structure Typed (κ : Type) where
  /-- The type, before the constraints are solved. -/
  type : Ty κ
  /-- The constraints, in the order in which they arise. -/
  constraints : List (Constraint κ)
deriving DecidableEq, Inhabited

variable [DecidableEq κ]

/-- The environment in which the body of a local definition is typed, given what was
inferred for the value: the value's constraints are solved and the name gets the
generalized type. -/
def Typed.bindIn (typed : Typed κ) (env : Env κ) (name : String) : Checked κ (Env κ) := do
  let s ← Constraint.solve typed.constraints
  let solved := env.apply s
  return solved.insert name ((typed.type.apply s).generalize solved)

mutual

/-- Infers the type of an expression and the constraints under which it holds. -/
def Expr.infer (env : Env κ) : Expr → Fresh κ (Typed κ)
  | .int _ => return { type := .int, constraints := [] }
  | .bool _ => return { type := .bool, constraints := [] }
  | .var name =>
      match env.get? name with
      | some scheme => do
          return { type := ← scheme.instantiate, constraints := [] }
      | none => throw (.rejected (.unbound name))
  | .lam parameter body => do
      let a ← Fresh.var
      let b ← body.infer (env.insert parameter (.mono a))
      return { type := .fn a b.type, constraints := b.constraints }
  | .app function argument => do
      let f ← function.infer env
      let a ← argument.infer env
      let result ← Fresh.var
      return {
        type := result
        constraints := f.constraints ++ a.constraints ++ [⟨f.type, .fn a.type result⟩] }
  | .letIn name value body => do
      let v ← value.infer env
      let bodyEnv ← Fresh.lift (v.bindIn env name)
      let b ← body.infer bodyEnv
      return { type := b.type, constraints := v.constraints ++ b.constraints }
  | .ifThenElse test onTrue onFalse => do
      let t ← test.infer env
      let a ← onTrue.infer env
      let b ← onFalse.infer env
      return {
        type := a.type
        constraints := t.constraints ++ a.constraints ++ b.constraints ++
          [⟨t.type, .bool⟩, ⟨a.type, b.type⟩] }
  | .fix body => do
      let b ← body.infer env
      let result ← Fresh.var
      return {
        type := result
        constraints := b.constraints ++ [⟨b.type, .fn result result⟩] }
  | .list elements => do
      let whole ← Fresh.var
      let element ← Fresh.var
      let constraints ← Expr.inferElements env element elements
      return { type := whole, constraints := constraints ++ [⟨whole, .list element⟩] }
  | .prim primitive => do
      return { type := ← primitive.type, constraints := [] }
  | .hole => throw (.broken .hole)

/-- The constraints under which all elements of a list have the given type. -/
def Expr.inferElements (env : Env κ) (element : Ty κ) :
    List Expr → Fresh κ (List (Constraint κ))
  | [] => return []
  | e :: rest => do
      let t ← e.infer env
      let constraints ← Expr.inferElements env element rest
      return t.constraints ++ ⟨t.type, element⟩ :: constraints

end

/-- All that inference finds out about an expression. -/
structure Inference (κ : Type) where
  /-- The constraints, in the order in which they arise. -/
  constraints : List (Constraint κ)
  /-- The solution of the constraints. -/
  substitution : Subst κ
  /-- The solved type, before its variables are renamed. -/
  type : Ty κ
  /-- The principal scheme in normal form. -/
  scheme : Scheme κ

/-- Solves what was inferred and closes the solved type. -/
def Typed.finish (typed : Typed κ) : Checked κ (Inference κ) := do
  let s ← Constraint.solve typed.constraints
  let type := typed.type.apply s
  return {
    constraints := typed.constraints
    substitution := s
    type := type
    scheme := ← type.closeOver }

namespace Expr

/-- Infers everything about an expression in an environment. -/
def inference (e : Expr) (env : Env κ) : Checked κ (Inference κ) := do
  (← ((e.infer env).runFrom 0).1).finish

/-- Infers the principal scheme of an expression in an environment. -/
def scheme (e : Expr) (env : Env κ) : Checked κ (Scheme κ) := do
  return (← e.inference env).scheme

end Expr

/-- Types definitions in order, each in the environment left by those before it. -/
def Definition.extend (env : Env κ) : List Definition → Checked κ (Env κ)
  | [] => .ok env
  | d :: rest => do
      let scheme ← d.value.scheme env
      Definition.extend (env.insert d.name scheme) rest

/-- Types a program: the environment of its definitions and the scheme of its body. -/
def Program.infer (program : Program) (env : Env κ) : Checked κ (Env κ × Scheme κ) := do
  let env ← Definition.extend env program.definitions
  return (env, ← program.body.scheme env)

end LetPoly
