import LetPoly.CheckError

/-!
# Unification

The most general substitution that makes two types equal, two sequences of types equal
pair by pair, or all constraints of a list true.

A unifier that is not empty removes a variable for good: it does not occur in any type to
which the unifier has been applied.  So unification goes through at most as many rounds
as there are variables, where a round runs down the first type and a new round starts
behind every such unifier.

Main results:

- Theorem {lit}`unify_self`: equal types need no substitution.
-/

namespace LetPoly

variable {κ : Type} [DecidableEq κ]

namespace Ty

/-- Binds a variable to a type, unless the variable occurs in it. -/
def bindVar (v : String) (type : Ty κ) : Checked κ (Subst κ) :=
  if type = var v then .ok ∅
  else if v ∈ type.freeVars then .error (.rejected (.infinite v type))
  else .ok (.single v type)

/-- Refuses a quantified type. -/
def checkUnifiable : Ty κ → Checked κ Unit
  | quantified mark bound body =>
      .error (.broken (.notUnifiable (quantified mark bound body)))
  | _ => .ok ()

/-- One round of unification; types to which a unifier has been applied are left to the
next round. -/
def unifyRound (nextRound : Ty κ → Ty κ → Checked κ (Subst κ)) (left right : Ty κ) :
    Checked κ (Subst κ) := do
  checkUnifiable left
  checkUnifiable right
  if left = right then
    return ∅
  else
    match left, right with
    | var v, type => bindVar v type
    | type, var v => bindVar v type
    | fn a b, fn c d | pair a b, pair c d => do
        let s₁ ← unifyRound nextRound a c
        let s₂ ←
          if s₁.isEmpty then unifyRound nextRound b d
          else nextRound (b.apply s₁) (d.apply s₁)
        return Subst.compose s₂ s₁
    | list a, list b => unifyRound nextRound a b
    | left, right => .error (.rejected (.clash left right))

/-- Unification in a number of rounds. -/
def unifyRounds : Nat → Ty κ → Ty κ → Checked κ (Subst κ)
  | 0 => unifyRound fun left right => .error (.rejected (.clash left right))
  | rounds + 1 => unifyRound (unifyRounds rounds)

/-- The most general substitution that makes two types equal. -/
def unify (left right : Ty κ) : Checked κ (Subst κ) :=
  unifyRounds (left.freeVars ∪ right.freeVars).size left right

/-- Unifies pairs of types from left to right, after changing them as given.  Each unifier
is applied to the pairs behind it. -/
def unifyPairs (change : Ty κ → Ty κ) : List (Ty κ × Ty κ) → Checked κ (Subst κ)
  | [] => .ok ∅
  | (left, right) :: rest => do
      let s₁ ← unify (change left) (change right)
      let s₂ ← unifyPairs (fun t => (change t).apply s₁) rest
      return Subst.compose s₂ s₁

/-- Unifies two sequences of types pair by pair. -/
def unifyMany (lefts rights : List (Ty κ)) : Checked κ (Subst κ) :=
  if lefts.length = rights.length then unifyPairs id (lefts.zip rights)
  else .error (.rejected (.lengths lefts rights))

end Ty

namespace Constraint

/-- The unifiers of constraints in the order in which they are found.  The last constraint
is solved first, and each unifier is applied to the constraints before it. -/
def unifiers : List (Constraint κ) → Checked κ (List (Subst κ))
  | [] => .ok []
  | c :: rest => do
      let found ← unifiers rest
      let waiting := found.foldl Constraint.apply c
      let s ← waiting.left.unify waiting.right
      return found ++ [s]

/-- The most general substitution that makes all constraints true. -/
def solve (constraints : List (Constraint κ)) : Checked κ (Subst κ) := do
  return (← unifiers constraints).foldl (fun s next => Subst.compose next s) ∅

end Constraint

/-- Equal types need no substitution. -/
theorem Ty.unify_self (t : MonoTy) : t.unify t = .ok ∅ := by
  have h : ∀ next, Ty.unifyRound next t t = .ok ∅ := by
    intro next
    cases t with
    | quantified mark _ _ => exact mark.elim
    | _ => simp [unifyRound, checkUnifiable, Bind.bind, Except.bind]; rfl
  unfold unify
  cases (t.freeVars ∪ t.freeVars).size with
  | zero => exact h _
  | succ n => exact h _

end LetPoly
