import LetPoly.Proofs.Evaluation.FreeVariables

/-!
# The limit on nesting

The limit on nesting never changes an answer.  Under a larger limit an evaluation has the
outcome that it had under a smaller one, unless it nested too deeply there; so the limit only
withholds answers.

Main results:

- Theorems {lit}`Expr.eval_withheld` and {lit}`Program.eval_withheld`: the outcomes under two
  limits.
- Theorem {lit}`Expr.limit_only_withholds`: values and errors are kept under larger limits.
-/

namespace LetPoly

namespace Eval

/-- An outcome is another one, or it was withheld because evaluation nested too deeply. -/
def Withheld {α : Type} (x y : Except EvalError α) : Prop :=
  x = .error .tooDeep ∨ x = y

namespace Withheld

variable {α β : Type} {x y : Except EvalError α}

theorem bind (h : Withheld x y) {f g : α → Except EvalError β}
    (hfg : ∀ a, Withheld (f a) (g a)) : Withheld (x >>= f) (y >>= g) := by
  rcases h with rfl | rfl
  · exact .inl rfl
  · cases x with
    | error error => exact .inr rfl
    | ok a => exact hfg a

end Withheld

end Eval

theorem Expr.eval_withheld {n m : Nat} (hnm : n ≤ m) (env : Values) (e : Expr) :
    Eval.Withheld (e.eval n env) (e.eval m env) :=
  Eval.Withheld.bind (Eval.evaluate_approximates hnm env env e (fun _ _ => rfl) 0)
    fun _ => .inr rfl

theorem Definition.evalAll_withheld {n m : Nat} (hnm : n ≤ m) (values : Bindings Value)
    (definitions : List Definition) :
    Eval.Withheld (Definition.evalAll n values definitions)
      (Definition.evalAll m values definitions) := by
  induction definitions generalizing values with
  | nil => exact .inr rfl
  | cons d rest ih => exact (Expr.eval_withheld hnm values.entries d.value).bind fun v => ih _

theorem Program.eval_withheld {n m : Nat} (hnm : n ≤ m) (values : Bindings Value)
    (program : Program) :
    Eval.Withheld (program.eval n values) (program.eval m values) := by
  refine (Definition.evalAll_withheld hnm values program.definitions).bind fun results => ?_
  exact (Expr.eval_withheld hnm results.entries program.body).bind fun _ => .inr rfl

/-- The limit on nesting never changes an answer: a value is the value under every larger
limit, and so is every error but that evaluation nested too deeply. -/
theorem Expr.limit_only_withholds {n m : Nat} (hnm : n ≤ m) (env : Values) (e : Expr) :
    (∀ v, e.eval n env = .ok v → e.eval m env = .ok v) ∧
      ∀ error, e.eval n env = .error error → error ≠ .tooDeep →
        e.eval m env = .error error := by
  have hsame := Expr.eval_withheld hnm env e
  constructor
  · intro v hv
    rw [← hsame.resolve_left (by rw [hv]; simp), hv]
  · intro error herror hdeep
    rw [← hsame.resolve_left (by rw [herror]; simpa using hdeep), herror]

/-- The sum of the numbers up to two, by a recursive function. -/
def sumUpTo : Expr :=
  .app (.fix (.lam "sum" (.lam "n"
    (.ifThenElse ((Expr.prim .eql).apps [.var "n", .var "zero"]) (.var "zero")
      ((Expr.prim .add).apps [.var "n",
        .app (.var "sum") ((Expr.prim .sub).apps [.var "n", .int 1])]))))) (.int 2)

/-- A limit of eleven is too small, one of twelve is enough for the sum, and for the error of
a sum that starts with a truth value. -/
theorem Expr.limit_only_withholds_sumUpTo :
    12 ≤ 40 ∧ sumUpTo.eval 11 [("zero", .int 0)] = .error .tooDeep ∧
      sumUpTo.eval 12 [("zero", .int 0)] = .ok (.int 3) ∧
      sumUpTo.eval 40 [("zero", .int 0)] = .ok (.int 3) ∧
      sumUpTo.eval 12 [("zero", .bool true)] =
        .error (.wrongArgument .eql (.bool true)) ∧
      sumUpTo.eval 40 [("zero", .bool true)] =
        .error (.wrongArgument .eql (.bool true)) := by
  have hlimits : 12 ≤ 40 := by decide
  have hvalue : sumUpTo.eval 12 [("zero", .int 0)] = .ok (.int 3) := rfl
  have herror : sumUpTo.eval 12 [("zero", .bool true)] =
      .error (.wrongArgument .eql (.bool true)) := rfl
  refine ⟨hlimits, rfl, hvalue, ?_, herror, ?_⟩
  · exact (Expr.limit_only_withholds hlimits _ sumUpTo).1 _ hvalue
  · exact (Expr.limit_only_withholds hlimits _ sumUpTo).2 _ herror (by simp)

end LetPoly
