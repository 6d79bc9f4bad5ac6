import LetPoly.Proofs.Evaluation.Step
import LetPoly.Proofs.Inference.Soundness

/-!
# Termination without fixed points

A typed expression without fixed points has a value, which is reached under every large
enough limit on nesting.  The bodies of closures are not parts of the expression that is
evaluated, so no measure on expressions decreases.  Instead values are told apart by what
they do: a function is reducible when its application to reducible arguments ends in
reducible results.

Main results:

- Theorem {lit}`Eval.evaluates`: typed expressions without fixed points evaluate to reducible
  values.
- Theorem {lit}`Expr.eval_terminates`: they have values.
-/

namespace LetPoly

namespace Eval

/-- Under every large enough limit the outcome is the same result, and it has a property. -/
def Stabilizes {α : Type} (m : Nat → Eval α) (P : α → Prop) : Prop :=
  ∀ c, ∃ limit a c', P a ∧ ∀ n ≥ limit, (m n).run c = .ok (a, c')

/-- An evaluation that does what another one does under a limit that differs by a constant. -/
theorem Stabilizes.delayed {α : Type} {m m' : Nat → Eval α} {P : α → Prop} (h : Stabilizes m P)
    (k j : Nat) (hm : ∀ n, m' (n + k) = m (n + j)) : Stabilizes m' P := by
  intro c
  obtain ⟨limit, a, c', ha, hrun⟩ := h c
  refine ⟨limit + k, a, c', ha, fun n hn => ?_⟩
  obtain ⟨n, rfl⟩ := Nat.exists_eq_add_of_le' (le_of_add_le_right hn)
  rw [hm n]
  exact hrun _ (by omega)

/-- Termination of evaluation. -/
def termination : EvalLogic where
  Holds := Stabilizes
  ofRun h c := by
    obtain ⟨a, c', hrun, ha⟩ := h c
    exact ⟨0, a, c', ha, fun _ _ => hrun⟩
  bind hm hf c := by
    obtain ⟨limit, a, c₁, ha, hrun⟩ := hm c
    obtain ⟨limit', b, c₂, hb, hrun'⟩ := hf a ha c₁
    refine ⟨max limit limit', b, c₂, hb, fun n hn => ?_⟩
    rw [StateT.run_bind, hrun n (le_trans (le_max_left _ _) hn)]
    exact hrun' n (le_trans (le_max_right _ _) hn)
  inter hS h c := by
    obtain ⟨i, hi⟩ := hS
    obtain ⟨limit, a, c', -, hrun⟩ := h i hi c
    refine ⟨limit, a, c', fun j hj => ?_, hrun⟩
    -- all properties are about the one result that is reached
    obtain ⟨limit', b, d, hb, hrun'⟩ := h j hj c
    have hsame := hrun (max limit limit') (le_max_left _ _)
    rw [hrun' _ (le_max_right _ _)] at hsame
    cases hsame
    exact hb

/-- A value is reducible at a type: evaluation that uses it at this type ends. -/
def Reducible : MonoTy → Value → Prop
  | .var _, _ => False
  | .con name, v => (name = "Int" ∧ ∃ n, v = .int n) ∨ (name = "Bool" ∧ ∃ b, v = .bool b)
  | .fn t u, f =>
      ∀ a, Reducible t a → Stabilizes (fun n => apply (evaluate n) f a) fun w => Reducible u w
  | .list t, v => ∃ vs, v = .list vs ∧ ∀ w ∈ vs, Reducible t w
  | .pair t u, v => ∃ a b, v = .pair a b ∧ Reducible t a ∧ Reducible u b
  | .quantified mark _ _, _ => mark.elim

/-- Reducible values model types. -/
def reducible : ValueModel termination where
  Valid := Reducible
  int_iff := by simp [Ty.int, Reducible]
  bool_iff := by simp [Ty.bool, Reducible]
  list_iff := Iff.rfl
  pair_iff := Iff.rfl
  apply hf ha := hf _ ha

/-- No fixed points. -/
def NoFix (_ : Expr) (_ : MonoTy) : Prop :=
  False

/-- A function whose body evaluates to reducible values is reducible. -/
theorem closes_of_evaluates {body : Expr} (h : reducible.Evaluates NoFix body) (x : String) :
    reducible.Closes NoFix x body := by
  intro env G t u henv _ hbody a ha
  refine h _ _ u (henv.cons (fun s hs => ?_) x) hbody
  rw [Set.mem_singleton_iff] at hs
  exact hs ▸ ha

/-- It is enough to go through one level of evaluation. -/
theorem stabilizes_evaluate {env : Values} {e : Expr} {P : Value → Prop}
    (h : Stabilizes (fun n => evaluateStep (evaluate n) env e) P) :
    Stabilizes (fun n => evaluate n env e) P :=
  h.delayed 1 0 fun _ => rfl

theorem evaluates_of_step {e : Expr}
    (h : ∀ env G t, Values.Fits Reducible env G → Expr.TypedBy NoFix G e t →
      Stabilizes (fun n => evaluateStep (evaluate n) env e) (Reducible t)) :
    reducible.Evaluates NoFix e :=
  fun env G t henv htyped => stabilizes_evaluate (h env G t henv htyped)

theorem evaluates_var (x : String) : reducible.Evaluates NoFix (.var x) := by
  refine evaluates_of_step fun env G t henv htyped => ?_
  cases htyped with
  | var ht =>
      obtain ⟨v, hv, hvalid⟩ := henv x t ht
      have hstep : ∀ n, evaluateStep (evaluate n) env (.var x) = pure v := evaluate_var hv
      simp only [hstep]
      exact termination.pure hvalid

/-- An operator that is used as a function ends: after its parameters it is carried out. -/
theorem evaluates_wrapped {p : Primitive} {xs : List String} (hxs : xs ≠ [])
    (hlength : xs.length = p.arity) (ys : List String) :
    reducible.Evaluates NoFix (ys.foldr .lam (Expr.saturation p xs)) := by
  induction ys with
  | nil =>
      refine evaluates_of_step fun env G t henv htyped => ?_
      refine ValueModel.evaluateStep_of_saturated (M := reducible)
        (saturated?_saturation hxs hlength) (fun a ha => ?_) henv htyped
      obtain ⟨x, -, rfl⟩ := List.mem_map.1 ha
      exact evaluates_var x
  | cons y ys ih =>
      refine evaluates_of_step fun env G t henv htyped => ?_
      cases htyped with
      | lam hbody => exact (closes_of_evaluates ih y).close henv hbody

/-- Typed expressions without fixed points evaluate to reducible values. -/
theorem evaluates (e : Expr) : reducible.Evaluates NoFix e := by
  induction hsize : sizeOf e using Nat.strong_induction_on generalizing e with
  | _ size ih =>
      subst hsize
      refine evaluates_of_step fun env G t henv htyped => ?_
      refine ValueModel.evaluateStep (M := reducible) (fun a ha => ih _ ha a rfl) ?_ ?_ ?_ henv
        htyped
      · rintro x body rfl
        exact closes_of_evaluates (ih _ (by simp) body rfl) x
      · rintro p rfl x rest hlength
        exact closes_of_evaluates (evaluates_wrapped (List.cons_ne_nil _ _) hlength rest) x
      · exact fun body _ env G t _ hfix => hfix.elim

end Eval

/-- Typed expressions without fixed points have values: evaluation gives the same value
under every large enough limit. -/
theorem Expr.eval_terminates {e : Expr} {σ : Scheme Empty} (hfix : e.FixFree)
    (h : e.scheme ∅ = .ok σ) : ∃ limit v, ∀ n ≥ limit, e.eval n [] = .ok v := by
  obtain ⟨r, hr, -⟩ := scheme_eq_ok.1 h
  have hresults : FixesUnder (fun θ => Solves θ r.constraints) Eval.NoFix
      (e.fixResults ∅ 0) := by
    intro result hresult
    have hmem := fst_mem_fixBodies hresult
    rw [hfix] at hmem
    exact absurd hmem List.not_mem_nil
  have htyped : TypedBy Eval.NoFix (Env.uses ∅ Ty.var) e (r.type.inst Ty.var) :=
    (hasTypeWith_of_inference Env.closed_empty hr hresults Ty.var).typedBy fun _ _ _ h => h
  have hempty : Values.Fits Eval.Reducible [] (Env.uses ∅ Ty.var) := by
    rintro x t ⟨τ, hτ, -⟩
    simp at hτ
  obtain ⟨limit, v, c, -, hrun⟩ := Eval.evaluates e [] _ _ hempty htyped 0
  exact ⟨limit, v, fun n hn => congrArg (Functor.map Prod.fst) (hrun n hn)⟩

/-- A polymorphic local definition, and operators that are passed as functions. -/
def foldTwice : Expr :=
  .letIn "twice" (.lam "f" (.lam "x" (.app (.var "f") (.app (.var "f") (.var "x")))))
    ((Expr.prim .foldl).apps [.prim .add, .int 0,
      (Expr.prim .map).apps [
        (Expr.var "twice").apps [.var "twice", .app (.prim .add) (.int 1)],
        .list [.int 1, .int 2]]])

/-- Evaluation of functions on functions. -/
theorem Expr.eval_terminates_foldTwice :
    foldTwice.FixFree ∧ foldTwice.scheme ∅ = .ok (.mono (.int : MonoTy)) ∧
      ∃ limit v, ∀ n ≥ limit, foldTwice.eval n [] = .ok v := by
  have hfix : foldTwice.FixFree := by decide
  have hscheme : foldTwice.scheme ∅ = .ok (.mono (.int : MonoTy)) :=
    Checked.eq_ok_of_toOption (by decide +kernel)
  exact ⟨hfix, hscheme, Expr.eval_terminates hfix hscheme⟩

end LetPoly
