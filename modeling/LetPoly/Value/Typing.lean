import LetPoly.Infer
import LetPoly.Value

/-!
# Types of values

A value is typed in the way of the expression that built it.  A closure is typed as its
function, in an environment that gives each captured value the scheme of its own type.
-/

namespace LetPoly

variable {κ : Type} [DecidableEq κ]

/-- Solves what was inferred. -/
def Typed.solved (typed : Typed κ) : Checked κ (Ty κ) := do
  return typed.type.apply (← Constraint.solve typed.constraints)

namespace Value

mutual

/-- Infers the type of a value and the constraints under which it holds. -/
def infer : Value → Fresh κ (Typed κ)
  | int _ => return { type := .int, constraints := [] }
  | bool _ => return { type := .bool, constraints := [] }
  | list elements => do
      let whole ← Fresh.var
      let element ← Fresh.var
      let constraints ← inferElements element elements
      return { type := whole, constraints := constraints ++ [⟨whole, .list element⟩] }
  | pair first second => do
      let a ← first.infer
      let b ← second.infer
      let whole ← Fresh.var
      return {
        type := whole
        constraints := a.constraints ++ b.constraints ++ [⟨whole, .pair a.type b.type⟩] }
  | closure parameter body captured => do
      let schemes ← Fresh.lift (capturedSchemes captured)
      (Expr.lam parameter body).infer (.ofList schemes)
  | hole => throw (.broken .valueHole)

/-- The constraints under which all elements of a list have the given type. -/
def inferElements (element : Ty κ) : List Value → Fresh κ (List (Constraint κ))
  | [] => return []
  | v :: rest => do
      let t ← v.infer
      let constraints ← inferElements element rest
      return t.constraints ++ ⟨t.type, element⟩ :: constraints

/-- The schemes of captured values. -/
def capturedSchemes : List (String × Value) → Checked κ (List (String × Scheme κ))
  | [] => .ok []
  | (x, v) :: rest => do
      let typed ← (v.infer.runFrom 0).1
      let scheme ← (← typed.solved).closeOver
      let schemes ← capturedSchemes rest
      return (x, scheme) :: schemes

end

/-- The solved type of a value, before its variables are renamed. -/
def type (v : Value) : Fresh κ (Ty κ) := do
  Fresh.lift (← v.infer).solved

/-- The scheme of a value. -/
def scheme (v : Value) : Checked κ (Scheme κ) := do
  (← (v.type.runFrom 0).1).closeOver

end Value

end LetPoly
