import LetPoly.Bindings
import LetPoly.Ty

/-!
# Substitutions and environments

A substitution replaces type variables by types, all at once: images are not substituted
again.  A typing environment gives names their schemes.  Both keep the order of their
names.

Main results:

- Theorems {lit}`apply_empty` and {lit}`empty_compose`: the empty substitution changes
  nothing.
- Theorem {lit}`get?_compose`: a composition, said through look-up.
-/

namespace LetPoly

variable {κ : Type}

/-- A substitution of types for type variables. -/
abbrev Subst (κ : Type) :=
  Bindings (Ty κ)

/-- A typing environment. -/
abbrev Env (κ : Type) :=
  Bindings (Scheme κ)

namespace Ty

/-- Replaces the variables of a type.  A quantifier protects its variables. -/
def apply : Ty κ → Subst κ → Ty κ
  | var name, s => (s.get? name).getD (var name)
  | con name, _ => con name
  | fn argument result, s => fn (argument.apply s) (result.apply s)
  | list element, s => list (element.apply s)
  | pair first second, s => pair (first.apply s) (second.apply s)
  | quantified mark bound body, s =>
      quantified mark bound (body.apply (s.without bound))

/-- The empty substitution changes no type. -/
@[simp] theorem apply_empty (t : Ty κ) : t.apply ∅ = t := by
  induction t with
  | var name => rfl
  | con name => rfl
  | fn argument result ih₁ ih₂ => rw [apply, ih₁, ih₂]
  | list element ih => rw [apply, ih]
  | pair first second ih₁ ih₂ => rw [apply, ih₁, ih₂]
  | quantified mark bound body ih =>
      rw [apply]
      exact congrArg _ ih

end Ty

/-- Replaces the free variables of a scheme. -/
def Scheme.apply (scheme : Scheme κ) (s : Subst κ) : Scheme κ where
  bound := scheme.bound
  body := scheme.body.apply (s.without scheme.bound)

/-- Replaces the variables of both sides of a constraint. -/
def Constraint.apply (c : Constraint κ) (s : Subst κ) : Constraint κ where
  left := c.left.apply s
  right := c.right.apply s

/-- Replaces the free variables of every scheme of an environment. -/
def Env.apply (env : Env κ) (s : Subst κ) : Env κ :=
  env.mapValues fun scheme => scheme.apply s

/-- The variables that are free in an environment, in order of first occurrence. -/
def Env.freeVars (env : Env κ) : OrderedSet String :=
  env.values.foldl (fun vars scheme => vars ∪ scheme.freeVars) ∅

namespace Subst

/-- The substitution that acts like the second followed by the first: the first's variables
come first, and the second's images win. -/
def compose (s₁ s₂ : Subst κ) : Subst κ :=
  s₁.merge (s₂.mapValues fun t => t.apply s₁)

/-- The image of a variable under a composition. -/
theorem get?_compose (s₁ s₂ : Subst κ) (name : String) :
    (compose s₁ s₂).get? name =
      ((s₂.get? name).map fun t => t.apply s₁).or (s₁.get? name) := by
  simp [compose]

/-- Composing with the empty substitution on the left changes nothing. -/
@[simp] theorem empty_compose (s : Subst κ) : compose ∅ s = s := by
  apply Bindings.ext_entries
  simp [compose, Bindings.merge, Bindings.mapValues]

/-- The text of a substitution. -/
def render (s : Subst κ) : String :=
  "\x7b" ++ ", ".intercalate (s.entries.map fun (v, t) => v ++ ": " ++ t.render) ++ "\x7d"

/-- The description of a substitution. -/
def describe (s : Subst κ) : String :=
  "Substitutions(\x7b" ++
    ", ".intercalate (s.entries.map fun (v, t) => Ty.describeVar v ++ ": " ++ t.describe) ++
    "\x7d)"

/-- A substitution with one replacement a line. -/
def renderLines (s : Subst κ) : String :=
  "\n".intercalate (s.entries.map fun (v, t) => v ++ " := " ++ t.render)

end Subst

namespace Env

/-- The text of an environment. -/
def render (env : Env κ) : String :=
  "\x7b" ++ ", ".intercalate (env.entries.map fun (x, s) => x ++ ": " ++ s.render) ++ "\x7d"

/-- The description of an environment. -/
def describe (env : Env κ) : String :=
  "Environment(\x7b" ++
    ", ".intercalate (env.entries.map fun (x, s) => Text.quoted x ++ ": " ++ s.describe) ++
    "\x7d)"

end Env

/-- Constraints, one a line. -/
def Constraint.renderLines (constraints : List (Constraint κ)) : String :=
  "\n".intercalate (constraints.map Constraint.render)

end LetPoly
