import LetPoly.Proofs.Composition
import LetPoly.Proofs.Unification

/-!
# Solving in parts

Constraints may be solved in parts, the later ones first, when the solutions are composed.
Unifying two sequences of types from left to right is solving the constraints between them
from right to left, so what holds of the solver holds of sequences as well.

Main results:

- Theorem {lit}`Constraint.solve_append`: constraints are solved in parts.
- Theorem {lit}`Ty.unifyMany_eq_solve`: two sequences are unified by solving the constraints
  between them.
-/

namespace LetPoly

namespace Constraint

/-- Constraints are solved in parts: the first part under the solution of the second. -/
theorem solve_append (C D : List (Constraint Empty)) :
    solve (C ++ D) = (do
      let s ← solve D
      let s' ← solve (C.map fun c => c.apply s)
      return Subst.compose s' s) := by
  cases hD : solve D with
  | error error =>
      induction C with
      | nil => exact hD
      | cons c C ih =>
          rw [List.cons_append, solve_cons, ih]
          rfl
  | ok s =>
      induction C with
      | nil => exact hD.trans (congrArg Except.ok (Subst.empty_compose s).symm)
      | cons c C ih =>
          rw [List.cons_append, solve_cons, ih]
          simp only [Bind.bind, Except.bind, Pure.pure, Except.pure, List.map_cons, solve_cons]
          cases solve (C.map fun c => c.apply s) with
          | error error => rfl
          | ok s' =>
              simp only [apply_compose]
              cases ((c.apply s).apply s').left.unify ((c.apply s).apply s').right with
              | error error => rfl
              | ok u => exact congrArg Except.ok (Subst.compose_assoc u s' s)

/-- Solving one constraint is unifying its sides. -/
theorem solve_singleton (c : Constraint Empty) : solve [c] = c.left.unify c.right := by
  have hc : c.apply ∅ = c := by simp [apply]
  rw [solve_cons]
  change (do return Subst.compose (← (c.apply ∅).left.unify (c.apply ∅).right) ∅) = _
  rw [hc]
  cases c.left.unify c.right with
  | error error => rfl
  | ok s => exact congrArg Except.ok (Subst.compose_empty s)

/-- The last constraint is solved first, and the others under its solution. -/
theorem solve_concat (C : List (Constraint Empty)) (c : Constraint Empty) :
    solve (C ++ [c]) = (do
      let s ← c.left.unify c.right
      let s' ← solve (C.map fun c => c.apply s)
      return Subst.compose s' s) := by
  rw [solve_append, solve_singleton]

/-- The constraints that two sequences of types be equal, pair by pair. -/
def between (lefts rights : List MonoTy) : List (Constraint Empty) :=
  lefts.zipWith mk rights

theorem between_eq_map_zip (lefts rights : List MonoTy) :
    between lefts rights = (lefts.zip rights).map fun p => ⟨p.1, p.2⟩ := by
  rw [between, List.zip, List.map_zipWith]

theorem between_map_apply (lefts rights : List MonoTy) (s : Subst Empty) :
    between (lefts.map fun t => t.apply s) (rights.map fun t => t.apply s) =
      (between lefts rights).map fun c => c.apply s := by
  simp only [between, List.zipWith_map, List.map_zipWith]
  rfl

end Constraint

namespace Ty

theorem unifyPairs_eq_solve (change : MonoTy → MonoTy) (pairs : List (MonoTy × MonoTy)) :
    unifyPairs change pairs =
      Constraint.solve (pairs.map fun p => ⟨change p.1, change p.2⟩).reverse := by
  induction pairs generalizing change with
  | nil => rfl
  | cons p rest ih =>
      rw [unifyPairs, List.map_cons, List.reverse_cons, Constraint.solve_concat]
      refine bind_congr fun s => ?_
      rw [ih, List.map_reverse, List.map_map]
      rfl

/-- Two sequences are unified by solving the constraints between them, the first one
first. -/
theorem unifyMany_eq_solve {lefts rights : List MonoTy} (h : lefts.length = rights.length) :
    unifyMany lefts rights = Constraint.solve (Constraint.between lefts rights).reverse := by
  rw [unifyMany, if_pos h, unifyPairs_eq_solve, Constraint.between_eq_map_zip]
  rfl

/-- The first pair of two sequences is unified first, and the others under its unifier. -/
theorem unifyMany_cons {l r : MonoTy} {lefts rights : List MonoTy}
    (h : lefts.length = rights.length) :
    unifyMany (l :: lefts) (r :: rights) = (do
      let s ← l.unify r
      let s' ← unifyMany (lefts.map fun t => t.apply s) (rights.map fun t => t.apply s)
      return Subst.compose s' s) := by
  have hcons : (l :: lefts).length = (r :: rights).length := by simp [h]
  rw [unifyMany_eq_solve hcons]
  change Constraint.solve (⟨l, r⟩ :: Constraint.between lefts rights).reverse = _
  rw [List.reverse_cons, Constraint.solve_concat]
  refine bind_congr fun s => ?_
  rw [unifyMany_eq_solve (by simp [h]), Constraint.between_map_apply, List.map_reverse]

end Ty

end LetPoly
