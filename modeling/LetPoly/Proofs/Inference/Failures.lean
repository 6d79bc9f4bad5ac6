import LetPoly.Proofs.Expressions
import LetPoly.Proofs.Inference.Runs
import LetPoly.Proofs.Schemes
import LetPoly.Proofs.Unification.Failures

/-!
# How inference fails

An expression without missing parts is refused only because a name is unbound, because types
clash or because a type would be infinite.  The other errors and all faults are for inputs
that never arise in inference.

Main results:

- Theorem {lit}`Constraint.solve_failsWith`: the solver refuses types only.
- Theorem {lit}`Expr.infer_failsWith`: inference on an expression without missing parts
  refuses the expression only.
- Theorem {lit}`Program.infer_failsWith`: so does inference on a program.
-/

namespace LetPoly

/-- An error for which the program is to blame: a name is unbound, types clash, or a type
would be infinite. -/
inductive CheckError.Blames : CheckError Empty → Prop where
  | unbound (x : String) : Blames (.rejected (.unbound x))
  | clash (left right : MonoTy) : Blames (.rejected (.clash left right))
  | infinite (a : String) (t : MonoTy) : Blames (.rejected (.infinite a t))

open CheckError (Blames)

/-! ## Checks and their errors -/

/-- A check fails with errors of a kind only. -/
def Checked.FailsWith {α : Type} (P : CheckError Empty → Prop) (x : Checked Empty α) : Prop :=
  ∀ error, x = .error error → P error

namespace Checked.FailsWith

variable {α β : Type} {P : CheckError Empty → Prop}

theorem ok (a : α) : FailsWith P (.ok a) :=
  nofun

/-- An error of the kind may be raised. -/
theorem error {error : CheckError Empty} (h : P error) :
    FailsWith P (.error error : Checked Empty α) := by
  rintro _ ⟨⟩
  exact h

/-- Checks in sequence fail like one of their parts. -/
theorem bind {x : Checked Empty α} {k : α → Checked Empty β} (hx : FailsWith P x)
    (hk : ∀ a, FailsWith P (k a)) : FailsWith P (x >>= k) := by
  cases x with
  | ok a => exact hk a
  | error e => exact error (hx e rfl)

end Checked.FailsWith

/-- A check with fresh variables fails with errors of a kind only, whatever the counter. -/
def Fresh.FailsWith {α : Type} (P : CheckError Empty → Prop) (x : Fresh Empty α) : Prop :=
  ∀ c error c', x.run c = .error error c' → P error

namespace Fresh.FailsWith

variable {α β : Type} {P : CheckError Empty → Prop}

theorem pure (a : α) : FailsWith P (Pure.pure a) :=
  nofun

/-- The same with a counter: an error of the kind may be raised. -/
theorem throw {error : CheckError Empty} (h : P error) :
    FailsWith P (throwThe _ error : Fresh Empty α) := by
  rintro c _ _ ⟨⟩
  exact h

/-- A check without a counter fails as it does with one. -/
theorem lift {x : Checked Empty α} (h : x.FailsWith P) : FailsWith P (Fresh.lift x) := by
  cases x with
  | ok a => exact pure a
  | error error => exact throw (h error rfl)

theorem var : FailsWith P Fresh.var :=
  nofun

/-- Checks with a counter in sequence fail like one of their parts. -/
theorem bind {x : Fresh Empty α} {k : α → Fresh Empty β} (hx : FailsWith P x)
    (hk : ∀ a, FailsWith P (k a)) : FailsWith P (x >>= k) := by
  intro c error c' hrun
  rw [EStateM.run_bind] at hrun
  cases hfirst : x.run c with
  | ok a c₁ =>
      rw [hfirst] at hrun
      exact hk a c₁ error c' hrun
  | error error₁ c₁ =>
      rw [hfirst] at hrun
      cases hrun
      exact hx c error c' hfirst

/-- Where the counter starts does not matter for the kind of errors. -/
theorem runFrom {x : Fresh Empty α} (h : FailsWith P x) (c : Int) :
    Checked.FailsWith P (x.runFrom c).1 := by
  intro error hrun
  rw [Fresh.runFrom] at hrun
  cases hfirst : x.run c with
  | ok a c₁ =>
      rw [hfirst] at hrun
      cases hrun
  | error error₁ c₁ =>
      rw [hfirst] at hrun
      cases hrun
      exact h c error c₁ hfirst

end Fresh.FailsWith

/-! ## Solving and closing -/

/-- What unification reports is the fault of the program. -/
theorem CheckError.Reports.blames {error : CheckError Empty} {l r : MonoTy}
    (h : error.Reports l r) : error.Blames := by
  cases h with
  | clash h => exact .clash l r
  | left h hne => exact .infinite _ r
  | right h hne => exact .infinite _ l

/-- The solver refuses types only. -/
theorem Constraint.solve_failsWith (C : List (Constraint Empty)) :
    (solve C).FailsWith Blames := by
  intro error h
  obtain ⟨before, c, after, p, s, -, hfails⟩ := exists_failsAt_of_solve h
  obtain ⟨l, r, -, -, hreports⟩ := hfails.reports
  exact hreports.blames

/-- Closing a type never fails. -/
theorem Ty.closeOver_failsWith {P : CheckError Empty → Prop} (t : MonoTy) :
    t.closeOver.FailsWith P := by
  rw [closeOver_eq]
  exact .ok _

/-- A local definition fails only when its value cannot be solved. -/
theorem Typed.bindIn_failsWith (v : Typed Empty) (Γ : Env Empty) (x : String) :
    (v.bindIn Γ x).FailsWith Blames :=
  (Constraint.solve_failsWith v.constraints).bind fun _ => .ok _

/-! ## Inference -/

/-- Operators have a type. -/
theorem Primitive.type_failsWith {P : CheckError Empty → Prop} (p : Primitive) :
    Fresh.FailsWith P p.type := by
  cases p <;> first
    | exact .pure _
    | exact Fresh.FailsWith.var.bind fun a => .pure _
    | exact Fresh.FailsWith.var.bind fun a => Fresh.FailsWith.var.bind fun b => .pure _

namespace Expr

-- the equations that the proofs below rewrite with
/-- Lists fail like one of their elements. -/
theorem inferElements_failsWith {Γ : Env Empty} {es : List Expr}
    (hes : ∀ e ∈ es, (e.infer Γ).FailsWith Blames) (element : MonoTy) :
    (inferElements Γ element es).FailsWith Blames := by
  induction es with
  | nil =>
      rw [inferElements]
      exact .pure _
  | cons e es ih =>
      rw [inferElements]
      refine (hes e List.mem_cons_self).bind fun t => ?_
      exact (ih fun e he => hes e (List.mem_cons_of_mem _ he)).bind fun C => .pure _

/-- Inference on an expression without missing parts refuses the expression only. -/
theorem infer_failsWith {e : Expr} (he : e.hasHole = false) (Γ : Env Empty) :
    (e.infer Γ).FailsWith Blames := by
  induction e generalizing Γ with
  | int n =>
      rw [infer]
      exact .pure _
  | bool b =>
      rw [infer]
      exact .pure _
  | var x =>
      rw [infer]
      cases Γ.get? x with
      | none => exact .throw (.unbound x)
      | some σ =>
          have hinstantiate : Fresh.FailsWith Blames σ.instantiate := nofun
          exact hinstantiate.bind fun t => .pure _
  | prim p =>
      rw [infer]
      exact p.type_failsWith.bind fun t => .pure _
  | hole => cases he
  | lam x body ih =>
      rw [infer]
      exact Fresh.FailsWith.var.bind fun a => (ih he _).bind fun b => .pure _
  | app function argument ihf iha =>
      rw [hasHole, Bool.or_eq_false_iff] at he
      rw [infer]
      exact (ihf he.1 Γ).bind fun f => (iha he.2 Γ).bind fun a =>
        Fresh.FailsWith.var.bind fun result => .pure _
  | letIn x value body ihv ihb =>
      rw [hasHole, Bool.or_eq_false_iff] at he
      rw [infer]
      refine (ihv he.1 Γ).bind fun v => ?_
      refine (Fresh.FailsWith.lift (v.bindIn_failsWith Γ x)).bind fun Γ' => ?_
      exact (ihb he.2 Γ').bind fun b => .pure _
  | ifThenElse test onTrue onFalse iht iha ihb =>
      rw [hasHole, Bool.or_eq_false_iff, Bool.or_eq_false_iff] at he
      rw [infer]
      exact (iht he.1.1 Γ).bind fun t => (iha he.1.2 Γ).bind fun a =>
        (ihb he.2 Γ).bind fun b => .pure _
  | fix body ih =>
      rw [infer]
      exact (ih he Γ).bind fun b => Fresh.FailsWith.var.bind fun result => .pure _
  | list es ih =>
      rw [hasHole, hasHoleList_eq_false] at he
      rw [infer]
      refine Fresh.FailsWith.var.bind fun whole => Fresh.FailsWith.var.bind fun element => ?_
      exact (inferElements_failsWith (fun e hmem => ih e hmem (he e hmem) Γ) element).bind
        fun C => .pure _

/-- Inference on an expression without missing parts fails only through the fault of the program. -/
theorem inference_failsWith {e : Expr} (he : e.hasHole = false) (Γ : Env Empty) :
    (e.inference Γ).FailsWith Blames := by
  refine ((infer_failsWith he Γ).runFrom 0).bind fun v => ?_
  refine (Constraint.solve_failsWith v.constraints).bind fun s => ?_
  exact (v.type.apply s).closeOver_failsWith.bind fun σ => .ok _

/-- So does the inference of schemes. -/
theorem scheme_failsWith {e : Expr} (he : e.hasHole = false) (Γ : Env Empty) :
    (e.scheme Γ).FailsWith Blames :=
  (inference_failsWith he Γ).bind fun _ => .ok _

end Expr

/-- No part of a program is missing. -/
def Program.Whole (program : Program) : Prop :=
  (∀ d ∈ program.definitions, d.value.hasHole = false) ∧ program.body.hasHole = false

/-- So does the check of definitions, whichever of them fails. -/
theorem Definition.extend_failsWith {definitions : List Definition}
    (h : ∀ d ∈ definitions, d.value.hasHole = false) (Γ : Env Empty) :
    (Definition.extend Γ definitions).FailsWith Blames := by
  induction definitions generalizing Γ with
  | nil => exact .ok _
  | cons d rest ih =>
      rw [List.forall_mem_cons] at h
      rw [Definition.extend]
      exact (Expr.scheme_failsWith h.1 Γ).bind fun σ => ih h.2 _

/-- Inference on a program without missing parts refuses the program only. -/
theorem Program.infer_failsWith {program : Program} (h : program.Whole) (Γ : Env Empty) :
    (program.infer Γ).FailsWith Blames :=
  (Definition.extend_failsWith h.1 Γ).bind fun _ =>
    (Expr.scheme_failsWith h.2 _).bind fun _ => .ok _

end LetPoly
