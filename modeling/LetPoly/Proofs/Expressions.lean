import LetPoly.Expr

/-!
# Parts of expressions

Induction over expressions, the names that occur in an expression and the fixed points
inside it.

Main results:

- Theorem {lit}`Expr.structuralInduction`: induction over expressions, where a list literal
  comes with the hypothesis for all its elements.
- Theorem {lit}`Expr.freeVars_subset_names`: the names that an expression uses and does not
  bind occur in it.
- Theorem {lit}`Expr.names_subset_of_mem_fixBodies`: the names in the body of a fixed point
  occur in the expression around it.
-/

namespace LetPoly
namespace Expr

/-- Induction over expressions: the hypothesis for a list literal is about each of its
elements. -/
@[elab_as_elim, induction_eliminator]
theorem structuralInduction {motive : Expr → Prop}
    (var : ∀ name, motive (.var name))
    (app : ∀ function argument, motive function → motive argument →
      motive (.app function argument))
    (lam : ∀ parameter body, motive body → motive (.lam parameter body))
    (letIn : ∀ name value body, motive value → motive body →
      motive (.letIn name value body))
    (int : ∀ value, motive (.int value))
    (bool : ∀ value, motive (.bool value))
    (ifThenElse : ∀ test onTrue onFalse, motive test → motive onTrue → motive onFalse →
      motive (.ifThenElse test onTrue onFalse))
    (fix : ∀ body, motive body → motive (.fix body))
    (list : ∀ elements, (∀ e ∈ elements, motive e) → motive (.list elements))
    (prim : ∀ primitive, motive (.prim primitive))
    (hole : motive .hole) (e : Expr) : motive e :=
  @Expr.rec motive (fun elements => ∀ e ∈ elements, motive e)
    var app lam letIn int bool ifThenElse fix list prim hole
    (fun _ h => absurd h List.not_mem_nil)
    (fun _ _ hfirst hrest _ h => (List.mem_cons.1 h).elim (fun heq => heq ▸ hfirst) (hrest _))
    e

/-! ## Names that are used and not bound -/

section FreeVars

variable {x y : String} {e f a b c : Expr} {es : List Expr}

attribute [local simp] freeVars freeVarsList

/-- A name is free in itself.  The lemmas for the other forms say which names each form binds. -/
@[simp] theorem mem_freeVars_var : x ∈ (var y).freeVars ↔ x = y := by
  simp

@[simp] theorem mem_freeVars_app :
    x ∈ (app f a).freeVars ↔ x ∈ f.freeVars ∨ x ∈ a.freeVars := by
  simp

/-- A parameter is bound in the body. -/
@[simp] theorem mem_freeVars_lam : x ∈ (lam y e).freeVars ↔ x ∈ e.freeVars ∧ x ≠ y := by
  simp

/-- The name of a local definition is bound in the body, and not in the value. -/
@[simp] theorem mem_freeVars_letIn :
    x ∈ (letIn y a b).freeVars ↔ x ∈ a.freeVars ∨ (x ∈ b.freeVars ∧ x ≠ y) := by
  simp

@[simp] theorem mem_freeVars_ifThenElse :
    x ∈ (ifThenElse a b c).freeVars ↔
      x ∈ a.freeVars ∨ x ∈ b.freeVars ∨ x ∈ c.freeVars := by
  simp [or_assoc]

@[simp] theorem mem_freeVars_fix : x ∈ (fix e).freeVars ↔ x ∈ e.freeVars := by
  simp

/-- The free names of expressions are those of each of them. -/
theorem mem_freeVarsList : x ∈ freeVarsList es ↔ ∃ e ∈ es, x ∈ e.freeVars := by
  induction es with
  | nil => simp
  | cons e rest ih => simp [ih]

@[simp] theorem mem_freeVars_list : x ∈ (list es).freeVars ↔ ∃ e ∈ es, x ∈ e.freeVars := by
  rw [freeVars, mem_freeVarsList]

end FreeVars

/-- Nothing is missing in a list if nothing is missing in its elements. -/
theorem hasHoleList_eq_false {es : List Expr} :
    hasHoleList es = false ↔ ∀ e ∈ es, e.hasHole = false := by
  induction es with
  | nil => simp [hasHoleList]
  | cons e rest ih => simp [hasHoleList, ih]

/-! ## All names and all fixed points -/

mutual

/-- The names that occur in an expression, as variables, parameters or names of local
definitions. -/
def names : Expr → List String
  | var name => [name]
  | app function argument => function.names ++ argument.names
  | lam parameter body => parameter :: body.names
  | letIn name value body => name :: (value.names ++ body.names)
  | int _ | bool _ | prim _ | hole => []
  | ifThenElse test onTrue onFalse => test.names ++ onTrue.names ++ onFalse.names
  | fix body => body.names
  | list elements => namesList elements

/-- The names that occur in some expressions. -/
def namesList : List Expr → List String
  | [] => []
  | e :: rest => e.names ++ namesList rest

end

mutual

/-- The bodies of the fixed points in an expression. -/
def fixBodies : Expr → List Expr
  | var _ | int _ | bool _ | prim _ | hole => []
  | app function argument => function.fixBodies ++ argument.fixBodies
  | lam _ body => body.fixBodies
  | letIn _ value body => value.fixBodies ++ body.fixBodies
  | ifThenElse test onTrue onFalse =>
      test.fixBodies ++ onTrue.fixBodies ++ onFalse.fixBodies
  | fix body => body :: body.fixBodies
  | list elements => fixBodiesList elements

/-- The bodies of the fixed points in some expressions. -/
def fixBodiesList : List Expr → List Expr
  | [] => []
  | e :: rest => e.fixBodies ++ fixBodiesList rest

end

/-- An expression without fixed points. -/
def FixFree (e : Expr) : Prop :=
  e.fixBodies = []

instance (e : Expr) : Decidable e.FixFree :=
  inferInstanceAs (Decidable (e.fixBodies = []))

/-- The names in expressions are those in each of them. -/
theorem mem_namesList {x : String} {es : List Expr} :
    x ∈ namesList es ↔ ∃ e ∈ es, x ∈ e.names := by
  induction es with
  | nil => simp [namesList]
  | cons e rest ih => simp [namesList, ih]

/-- The fixed points in expressions are those in each of them. -/
theorem mem_fixBodiesList {body : Expr} {es : List Expr} :
    body ∈ fixBodiesList es ↔ ∃ e ∈ es, body ∈ e.fixBodies := by
  induction es with
  | nil => simp [fixBodiesList]
  | cons e rest ih => simp [fixBodiesList, ih]

/-- The names that an expression uses and does not bind occur in it. -/
theorem freeVars_subset_names {e : Expr} {x : String} (h : x ∈ e.freeVars) : x ∈ e.names := by
  induction e with
  | var name => simpa [names] using h
  | app function argument ih₁ ih₂ =>
      rw [names, List.mem_append]
      exact (mem_freeVars_app.1 h).imp ih₁ ih₂
  | lam parameter body ih =>
      rw [names]
      exact List.mem_cons_of_mem _ (ih (mem_freeVars_lam.1 h).1)
  | letIn name value body ih₁ ih₂ =>
      rw [names]
      refine List.mem_cons_of_mem _ (List.mem_append.2 ?_)
      exact (mem_freeVars_letIn.1 h).imp ih₁ fun hbody => ih₂ hbody.1
  | ifThenElse test onTrue onFalse ih₁ ih₂ ih₃ =>
      simp only [names, List.mem_append]
      rcases mem_freeVars_ifThenElse.1 h with h | h | h
      · exact Or.inl (Or.inl (ih₁ h))
      · exact Or.inl (Or.inr (ih₂ h))
      · exact Or.inr (ih₃ h)
  | fix body ih => exact ih (mem_freeVars_fix.1 h)
  | list elements ih =>
      obtain ⟨e, he, hx⟩ := mem_freeVars_list.1 h
      rw [names]
      exact mem_namesList.2 ⟨e, he, ih e he hx⟩
  | _ => simp [freeVars] at h

/-- The names in the body of a fixed point occur in the expression around it. -/
theorem names_subset_of_mem_fixBodies {e body : Expr} {x : String}
    (hbody : body ∈ e.fixBodies) (hx : x ∈ body.names) : x ∈ e.names := by
  induction e with
  | app function argument ih₁ ih₂ =>
      rw [fixBodies, List.mem_append] at hbody
      rw [names, List.mem_append]
      exact hbody.imp ih₁ ih₂
  | lam parameter inner ih =>
      rw [names]
      exact List.mem_cons_of_mem _ (ih hbody)
  | letIn name value inner ih₁ ih₂ =>
      rw [fixBodies, List.mem_append] at hbody
      rw [names]
      exact List.mem_cons_of_mem _ (List.mem_append.2 (hbody.imp ih₁ ih₂))
  | ifThenElse test onTrue onFalse ih₁ ih₂ ih₃ =>
      simp only [fixBodies, List.mem_append] at hbody
      simp only [names, List.mem_append]
      exact hbody.imp (fun h => h.imp ih₁ ih₂) ih₃
  | fix inner ih =>
      rcases List.mem_cons.1 hbody with rfl | hbody
      · exact hx
      · exact ih hbody
  | list elements ih =>
      obtain ⟨e, he, hmem⟩ := mem_fixBodiesList.1 hbody
      rw [names]
      exact mem_namesList.2 ⟨e, he, ih e he hmem⟩
  | _ => simp [fixBodies] at hbody

end Expr

/-- The names that occur in a program. -/
def Program.names (program : Program) : List String :=
  program.definitions.flatMap (fun d => d.name :: d.value.names) ++ program.body.names

end LetPoly
