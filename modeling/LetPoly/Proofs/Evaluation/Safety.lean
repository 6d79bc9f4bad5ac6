import LetPoly.Proofs.Evaluation.Step
import LetPoly.Proofs.Inference.Soundness

/-!
# Type safety

A program that is typed, and whose fixed points are all functions, goes wrong in one way
only: by nesting too deeply.  Values are typed by rules.  A closure is typed by a typing of
its body, with the names that it keeps used at types of their values, and it keeps no name
without use; so the unrolling of a fixed point is a typed closure like any other.

Main results:

- Theorem {lit}`Eval.evaluate_safe`: typed expressions evaluate safely to typed values.
- Theorem {lit}`Program.eval_safe`: typed programs evaluate safely.
-/

namespace LetPoly

/-! ## Safe outcomes -/

namespace Eval

/-- An outcome is a result with a property, or evaluation nested too deeply. -/
abbrev Safe {α : Type} (P : α → Prop) : Except EvalError α → Prop :=
  Regular (· = .tooDeep) P

/-- Safety of the evaluation with a given limit. -/
def safety (limit : Nat) : EvalLogic where
  Holds {α} m P := ∀ c, Safe (fun outcome : α × Int => P outcome.1) ((m limit).run c)
  ofRun h c := by
    obtain ⟨a, c', hrun, ha⟩ := h c
    rw [hrun]
    exact ha
  bind hm hf c := by
    rw [StateT.run_bind]
    exact (hm c).bind fun outcome houtcome => hf outcome.1 houtcome outcome.2
  inter hS h c := Regular.inter hS fun i hi => h i hi c

end Eval

/-! ## Typed values -/

/-- A value has a type, where fixed points in the bodies of functions meet a side
condition. -/
inductive ValueTyped (fixable : Expr → MonoTy → Prop) : MonoTy → Value → Prop where
  | int {n : Int} : ValueTyped fixable .int (.int n)
  | bool {b : Bool} : ValueTyped fixable .bool (.bool b)
  | list {t : MonoTy} {vs : List Value} (hvs : ∀ v ∈ vs, ValueTyped fixable t v) :
      ValueTyped fixable (.list t) (.list vs)
  | pair {t u : MonoTy} {a b : Value} (ha : ValueTyped fixable t a)
      (hb : ValueTyped fixable u b) : ValueTyped fixable (.pair t u) (.pair a b)
  | closure {x : String} {body : Expr} {captured : Values} {G : String → Set MonoTy}
      {t u : MonoTy} (hdefined : ∀ y s, s ∈ G y → (captured.lookup y).isSome)
      (hcaptured : ∀ y s v, s ∈ G y → captured.lookup y = some v → ValueTyped fixable s v)
      (htight : Values.Tight captured G)
      (hbody : Expr.TypedBy fixable (Function.update G x {t}) body u) :
      ValueTyped fixable (.fn t u) (.closure x body captured)

namespace ValueTyped

variable {fixable : Expr → MonoTy → Prop}

/-- A closure is typed by the values that it keeps and by its body. -/
theorem closure_iff {t u : MonoTy} {v : Value} :
    ValueTyped fixable (.fn t u) v ↔
      ∃ x body captured G, v = .closure x body captured ∧
        Values.Fits (ValueTyped fixable) captured G ∧ Values.Tight captured G ∧
        Expr.TypedBy fixable (Function.update G x {t}) body u := by
  constructor
  · intro h
    cases h with
    | @closure x body captured G _ _ hdefined hcaptured htight hbody =>
        refine ⟨x, body, captured, G, rfl, fun y s hs => ?_, htight, hbody⟩
        obtain ⟨w, hw⟩ := Option.isSome_iff_exists.1 (hdefined y s hs)
        exact ⟨w, hw, hcaptured y s w hs hw⟩
  · rintro ⟨x, body, captured, G, rfl, henv, htight, hbody⟩
    refine .closure (fun y s hs => ?_) (fun y s w hs hw => ?_) htight hbody
    · obtain ⟨w, hw, -⟩ := henv y s hs
      exact Option.isSome_iff_exists.2 ⟨w, hw⟩
    · obtain ⟨w', hw', htyped⟩ := henv y s hs
      rw [hw] at hw'
      cases hw'
      exact htyped

/-- Typed values model types for a limit under which typed expressions evaluate safely. -/
def model (limit : Nat)
    (h : ∀ e env G t, Values.Fits (ValueTyped fixable) env G → Expr.TypedBy fixable G e t →
      (Eval.safety limit).Holds (fun n => Eval.evaluate n env e) (ValueTyped fixable t)) :
    ValueModel (Eval.safety limit) where
  Valid := ValueTyped fixable
  int_iff := by
    intro v
    constructor
    · intro h
      generalize ht : (Ty.int : MonoTy) = t at h
      cases h with
      | int => exact ⟨_, rfl⟩
      | bool => exact absurd ht (by decide)
      | list | pair | closure => cases ht
    · rintro ⟨n, rfl⟩
      exact .int
  bool_iff := by
    intro v
    constructor
    · intro h
      generalize ht : (Ty.bool : MonoTy) = t at h
      cases h with
      | int => exact absurd ht (by decide)
      | bool => exact ⟨_, rfl⟩
      | list | pair | closure => cases ht
    · rintro ⟨b, rfl⟩
      exact .bool
  list_iff := by
    intro t v
    constructor
    · intro h
      cases h with
      | list hvs => exact ⟨_, rfl, hvs⟩
    · rintro ⟨vs, rfl, hvs⟩
      exact .list hvs
  pair_iff := by
    intro t u v
    constructor
    · intro h
      cases h with
      | pair ha hb => exact ⟨_, _, rfl, ha, hb⟩
    · rintro ⟨a, b, rfl, ha, hb⟩
      exact .pair ha hb
  apply := by
    intro t u f a hf ha
    obtain ⟨x, body, captured, G, rfl, henv, -, hbody⟩ := closure_iff.1 hf
    refine h body _ _ u (henv.cons (fun s hs => ?_) x) hbody
    rw [Set.mem_singleton_iff] at hs
    exact hs ▸ ha

end ValueTyped

/-! ## Typed expressions evaluate safely -/

/-- A fixed point is used as a function, and its body has no name like those of the
parameters that evaluation makes. -/
def FixesFunction (body : Expr) (t : MonoTy) : Prop :=
  t.isFn = true ∧ ∀ x ∈ body.freeVars, ∀ i, x ≠ parameterName i

namespace Eval

/-- Typed closures are typed values. -/
theorem closes_model {fixable : Expr → MonoTy → Prop} {limit : Nat}
    {h : ∀ e env G t, Values.Fits (ValueTyped fixable) env G → Expr.TypedBy fixable G e t →
      (safety limit).Holds (fun n => evaluate n env e) (ValueTyped fixable t)}
    (x : String) (body : Expr) : (ValueTyped.model limit h).Closes fixable x body :=
  fun env G _ _ henv htight hbody =>
    ValueTyped.closure_iff.2 ⟨x, body, env, G, rfl, henv, htight, hbody⟩

/-- A fixed point of a function on functions is safe: its unrolling is a typed closure. -/
theorem evaluateForm_fix_safe {limit : Nat}
    (h : ∀ e env G t, Values.Fits (ValueTyped FixesFunction) env G →
      Expr.TypedBy FixesFunction G e t →
      (safety limit).Holds (fun n => evaluate n env e) (ValueTyped FixesFunction t))
    {body : Expr} {env : Values} {G : String → Set MonoTy} {t : MonoTy}
    (henv : Values.Fits (ValueTyped FixesFunction) env G) (hfix : FixesFunction body t)
    (hbody : Expr.TypedBy FixesFunction G body (.fn t t)) :
    (safety limit).Holds (fun n => evaluateForm (evaluate n) env (.fix body))
      (ValueTyped FixesFunction t) := by
  let L := safety limit
  let M : ValueModel L := ValueTyped.model limit h
  obtain ⟨a, b, rfl⟩ : ∃ a b, t = .fn a b := by
    have hfn := hfix.1
    cases t <;> first | exact ⟨_, _, rfl⟩ | cases hfn
  have hparameter : L.Holds (fun _ => freshParameter) fun x => ∃ i, x = parameterName i :=
    L.ofRun fun c => ⟨parameterName (c + 1), c + 1, rfl, c + 1, rfl⟩
  refine L.bind (h body env G _ henv hbody) fun function hfunction => ?_
  refine L.bind hparameter fun x hx => ?_
  obtain ⟨i, rfl⟩ := hx
  have hunrolled : Expr.TypedBy FixesFunction (Function.update G (parameterName i) {a})
      (.app (.fix body) (.var (parameterName i))) b := by
    refine .app (.fix hfix (hbody.weaken fun y hy => ?_)) (.var ?_)
    · rw [Function.update_of_ne (hfix.2 y hy i)]
    · rw [Function.update_self]
      exact Set.mem_singleton a
  exact L.bind ((closes_model (h := h) _ _).close henv hunrolled)
    fun unrolled hu => M.apply hfunction hu

/-- Typed expressions, with all fixed points functions, evaluate safely to typed values. -/
theorem evaluate_safe (limit : Nat) (e : Expr) (env : Values) (G : String → Set MonoTy)
    (t : MonoTy) (henv : Values.Fits (ValueTyped FixesFunction) env G)
    (h : Expr.TypedBy FixesFunction G e t) :
    (safety limit).Holds (fun n => evaluate n env e) (ValueTyped FixesFunction t) := by
  induction limit generalizing e env G t with
  | zero => exact fun c => rfl
  | succ limit ih =>
      have hstep : (safety limit).Holds (fun n => evaluateStep (evaluate n) env e)
          (ValueTyped FixesFunction t) :=
        ValueModel.evaluateStep (M := ValueTyped.model limit ih) (fun a _ => ih a)
          (fun x body _ => closes_model x body) (fun p _ x rest _ => closes_model x _)
          (fun body _ env G t henv hfix hbody => evaluateForm_fix_safe ih henv hfix hbody)
          henv h
      exact hstep

end Eval

/-! ## Programs -/

/-- A new value fits a name at a set of its types. -/
theorem Values.Fits.insert {Valid : MonoTy → Value → Prop} {values : Bindings Value}
    {G : String → Set MonoTy} (h : Values.Fits Valid values.entries G) {v : Value}
    {S : Set MonoTy} (hv : ∀ t ∈ S, Valid t v) (x : String) :
    Values.Fits Valid (values.insert x v).entries (Function.update G x S) := by
  intro y t ht
  change ∃ w, (values.insert x v).get? y = some w ∧ Valid t w
  rw [Bindings.get?_insert]
  by_cases hxy : y = x
  · subst hxy
    rw [Function.update_self] at ht
    exact ⟨v, if_pos rfl, hv t ht⟩
  · rw [Function.update_of_ne hxy] at ht
    rw [if_neg hxy]
    exact h y t ht

/-- The side condition on fixed points is kept by instantiation. -/
theorem FixesFunction.inst {body : Expr} {t : MonoTy} (h : FixesFunction body t)
    (θ : Assignment) : FixesFunction body (t.inst θ) :=
  ⟨Ty.isFn_inst h.1 θ, h.2⟩

namespace Expr

/-- An inferred expression whose fixed points are functions has all instances of its scheme
as types. -/
theorem typedBy_of_inference {Γ : Env Empty} {e : Expr} {r : Inference Empty} (hΓ : Γ.Closed)
    (h : e.inference Γ = .ok r) (hfix : e.fixesFunctions Γ = true)
    (hnames : ∀ x ∈ e.names, Unnumbered x) {t : MonoTy} (ht : r.scheme.Instance t) :
    TypedBy FixesFunction (Γ.uses Ty.var) e t := by
  obtain ⟨ρ, rfl⟩ := ((scheme_of_inference h).2 t).1 ht
  refine (hasTypeWith_of_inference hΓ h ?_ ρ).typedBy fun θ body u hu => hu.inst θ
  intro result hresult θ hθ
  refine ⟨isFn_of_fixesFunctions h hfix hresult hθ, fun x hx => ?_⟩
  have hbody := fst_mem_fixBodies hresult
  exact (hnames x (names_subset_of_mem_fixBodies hbody
    (freeVars_subset_names hx))).ne_parameterName

/-- An inferred expression evaluates safely to a value of all instances of its scheme. -/
theorem safe_eval {Γ : Env Empty} {e : Expr} {σ : Scheme Empty} (hΓ : Γ.Closed)
    (h : e.scheme Γ = .ok σ) (hfix : e.fixesFunctions Γ = true)
    (hnames : ∀ x ∈ e.names, Unnumbered x) {env : Values}
    (henv : Values.Fits (ValueTyped FixesFunction) env (Γ.uses Ty.var)) (limit : Nat) :
    Eval.Safe (fun v => ∀ t ∈ σ.instances Ty.var, ValueTyped FixesFunction t v)
      (e.eval limit env) := by
  obtain ⟨r, hr, rfl⟩ := scheme_eq_ok.1 h
  have hevaluate := (Eval.safety limit).inter (r.scheme.instances_nonempty Ty.var)
    fun t ht => Eval.evaluate_safe limit e env _ t henv
      (typedBy_of_inference hΓ hr hfix hnames (Scheme.instance_iff.2 ht))
  exact (hevaluate 0).map Prod.fst

end Expr

namespace Definition

/-- Definitions evaluate safely to values of all instances of their schemes. -/
theorem evalAll_safe {Γ Δ : Env Empty} {definitions : List Definition}
    (hΓ : Γ.Closed) (h : Definition.extend Γ definitions = .ok Δ)
    (hfix : Definition.fixesFunctions Γ definitions = true)
    (hnames : ∀ d ∈ definitions, ∀ x ∈ d.value.names, Unnumbered x) {values : Bindings Value}
    (hvalues : Values.Fits (ValueTyped FixesFunction) values.entries (Γ.uses Ty.var))
    (limit : Nat) :
    Eval.Safe (fun results : Bindings Value =>
      Values.Fits (ValueTyped FixesFunction) results.entries (Δ.uses Ty.var))
      (Definition.evalAll limit values definitions) := by
  induction definitions generalizing Γ values with
  | nil =>
      cases h
      exact hvalues
  | cons d rest ih =>
      obtain ⟨σ, hσ, hrest⟩ := extend_cons h
      rw [Definition.fixesFunctions, hσ, Bool.and_eq_true] at hfix
      obtain ⟨hfixd, hfixrest⟩ := hfix
      rw [List.forall_mem_cons] at hnames
      refine (Expr.safe_eval hΓ hσ hfixd hnames.1 hvalues limit).bind fun v hv => ?_
      obtain ⟨r, hr, rfl⟩ := Expr.scheme_eq_ok.1 hσ
      refine ih (hΓ.insert (Expr.scheme_of_inference hr).1 d.name) hrest hfixrest hnames.2 ?_
      rw [Env.uses_insert]
      exact hvalues.insert hv d.name

end Definition

/-- Typed programs whose fixed points are functions are safe: under every limit, evaluation
gives values or nests too deeply, and says so. -/
theorem Program.eval_safe {program : Program} {Γ : Env Empty} {σ : Scheme Empty}
    (hnames : ∀ x ∈ program.names, Unnumbered x) (h : program.infer ∅ = .ok (Γ, σ))
    (hfix : program.fixesFunctions = true) (limit : Nat) :
    (∃ values v, program.eval limit ∅ = .ok (values, v)) ∨
      program.eval limit ∅ = .error .tooDeep ∧
        EvalError.tooDeep.message = .ok "evaluation nested too deeply" := by
  obtain ⟨hextend, hbody⟩ := infer_eq_ok h
  rw [Program.fixesFunctions, hextend, Bool.and_eq_true] at hfix
  have hvalues : Values.Fits (ValueTyped FixesFunction) (∅ : Bindings Value).entries
      (Env.uses ∅ Ty.var) := by
    rintro x t ⟨τ, hτ, -⟩
    simp at hτ
  have hsafe : Eval.Safe (fun _ => True) (program.eval limit ∅) := by
    refine (Definition.evalAll_safe Env.closed_empty hextend hfix.1 ?_ hvalues limit).bind
      fun values hfits => ?_
    · intro d hd x hx
      exact hnames x (List.mem_append_left _
        (List.mem_flatMap.2 ⟨d, hd, List.mem_cons_of_mem _ hx⟩))
    · refine (Expr.safe_eval (Definition.extend_closed Env.closed_empty hextend) hbody hfix.2
        (fun x hx => hnames x (List.mem_append_right _ hx)) hfits limit).bind fun v _ => ?_
      exact trivial
  cases hrun : program.eval limit ∅ with
  | ok outcome => exact Or.inl ⟨outcome.1, outcome.2, rfl⟩
  | error error =>
      rw [hrun] at hsafe
      exact Or.inr ⟨congrArg Except.error hsafe, rfl⟩

/-- A program with a polymorphic definition and a fixed point, which is a function. -/
def sumTwice : Program where
  definitions := [
    ⟨"twice", .lam "f" (.lam "x" (.app (.var "f") (.app (.var "f") (.var "x"))))⟩,
    ⟨"sum", .fix (.lam "sum" (.lam "n"
      (.ifThenElse (.app (.app (.prim .eql) (.var "n")) (.int 0)) (.int 0)
        (.app (.app (.prim .add) (.var "n"))
          (.app (.var "sum") (.app (.app (.prim .sub) (.var "n")) (.int 1)))))))⟩]
  body := .app (.app (.prim .pair) (.app (.app (.var "twice") (.var "sum")) (.int 2)))
    (.app (.app (.var "twice") (.app (.prim .cons) (.bool true))) (.prim .nil))

/-- The schemes of its definitions. -/
def sumTwiceEnv : Env Empty :=
  .ofList [("twice", ⟨["a"], .fn (.fn (.var "a") (.var "a")) (.fn (.var "a") (.var "a"))⟩),
    ("sum", .mono (.fn .int .int))]

/-- Evaluation of a recursive function and of a definition at two types. -/
theorem Program.eval_safe_sumTwice :
    (∀ x ∈ sumTwice.names, Unnumbered x) ∧
      sumTwice.infer ∅ = .ok (sumTwiceEnv, .mono (.pair .int (.list .bool))) ∧
      sumTwice.fixesFunctions = true ∧
      ∀ limit, (∃ values v, sumTwice.eval limit ∅ = .ok (values, v)) ∨
        sumTwice.eval limit ∅ = .error .tooDeep ∧
          EvalError.tooDeep.message = .ok "evaluation nested too deeply" := by
  have hnames : ∀ x ∈ sumTwice.names, Unnumbered x := by decide
  have hinfer : sumTwice.infer ∅ = .ok (sumTwiceEnv, .mono (.pair .int (.list .bool))) :=
    Checked.eq_ok_of_toOption (by decide +kernel)
  have hfix : sumTwice.fixesFunctions = true := by decide +kernel
  exact ⟨hnames, hinfer, hfix, fun limit => Program.eval_safe hnames hinfer hfix limit⟩

end LetPoly
