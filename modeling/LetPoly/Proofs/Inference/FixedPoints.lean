import LetPoly.Proofs.Inference.Runs

/-!
# Fixed points in a run of inference

The type that inference gives to each fixed point inside an expression, before and after the
constraints are solved.  Evaluation needs fixed points to be functions, and types alone do
not ask for this.

Main results:

- Theorem {lit}`Expr.fst_mem_fixBodies`: the fixed points of a run are those of the
  expression.
- Theorem {lit}`Expr.isFn_of_fixesFunctions`: a fixed point that inference gives a function
  type has one under every solution of the constraints.
-/

namespace LetPoly

/-- Goes on with the outcome of a run that succeeds. -/
def Fresh.andThen {α β : Type} (run : Fresh Empty α) (c : Int) (next : α → Int → List β) :
    List β :=
  match run.run c with
  | .ok a c' => next a c'
  | .error _ _ => []

mutual

/-- The bodies of the fixed points in an expression, each with the type that inference
gives to the fixed point before constraints are solved. -/
def Expr.fixResults (Γ : Env Empty) (c : Int) : Expr → List (Expr × MonoTy)
  | .int _ | .bool _ | .var _ | .prim _ | .hole => []
  | .lam x body =>
      body.fixResults (Γ.insert x (.mono (.var (typeVarName (c + 1))))) (c + 1)
  | .app f a =>
      f.fixResults Γ c ++ Fresh.andThen (f.infer Γ) c fun _ c₁ => a.fixResults Γ c₁
  | .letIn x value body =>
      value.fixResults Γ c ++ Fresh.andThen (value.infer Γ) c fun v c₁ =>
        match v.bindIn Γ x with
        | .ok Δ => body.fixResults Δ c₁
        | .error _ => []
  | .ifThenElse test onTrue onFalse =>
      test.fixResults Γ c ++ Fresh.andThen (test.infer Γ) c fun _ c₁ =>
        onTrue.fixResults Γ c₁ ++ Fresh.andThen (onTrue.infer Γ) c₁ fun _ c₂ =>
          onFalse.fixResults Γ c₂
  | .fix body =>
      body.fixResults Γ c ++
        Fresh.andThen ((Expr.fix body).infer Γ) c fun r _ => [(body, r.type)]
  | .list es => Expr.fixResultsList Γ (c + 1 + 1) es

/-- The bodies of the fixed points in list elements, with their types. -/
def Expr.fixResultsList (Γ : Env Empty) (c : Int) : List Expr → List (Expr × MonoTy)
  | [] => []
  | e :: es =>
      e.fixResults Γ c ++ Fresh.andThen (e.infer Γ) c fun _ c₁ => Expr.fixResultsList Γ c₁ es

end

theorem Expr.Infers.andThen {Γ : Env Empty} {c c' : Int} {e : Expr} {r : Typed Empty}
    (h : e.Infers Γ c r c') {β : Type} (next : Typed Empty → Int → List β) :
    Fresh.andThen (e.infer Γ) c next = next r c' := by
  rw [Fresh.andThen, h]

theorem Fresh.mem_andThen {α β : Type} {run : Fresh Empty α} {c : Int}
    {next : α → Int → List β} {b : β} (h : b ∈ Fresh.andThen run c next) :
    ∃ a c', b ∈ next a c' := by
  rw [Fresh.andThen] at h
  split at h
  · exact ⟨_, _, h⟩
  · exact absurd h List.not_mem_nil

/-- The fixed points of a run are those of the expression. -/
theorem Expr.fst_mem_fixBodies {Γ : Env Empty} {c : Int} {e : Expr} {result : Expr × MonoTy}
    (h : result ∈ e.fixResults Γ c) : result.1 ∈ e.fixBodies := by
  induction e generalizing Γ c with
  | app f a ihf iha =>
      rw [fixResults, List.mem_append] at h
      rw [fixBodies, List.mem_append]
      refine h.imp ihf fun h => ?_
      obtain ⟨_, _, h⟩ := Fresh.mem_andThen h
      exact iha h
  | lam x body ih => exact ih h
  | letIn x value body ihv ihb =>
      rw [fixResults, List.mem_append] at h
      rw [fixBodies, List.mem_append]
      refine h.imp ihv fun h => ?_
      obtain ⟨v, c₁, h⟩ := Fresh.mem_andThen h
      cases hbind : v.bindIn Γ x with
      | ok Δ =>
          rw [hbind] at h
          exact ihb h
      | error error =>
          rw [hbind] at h
          exact absurd h List.not_mem_nil
  | ifThenElse test onTrue onFalse iht iha ihb =>
      simp only [fixResults, List.mem_append] at h
      simp only [fixBodies, List.mem_append, or_assoc]
      refine h.imp iht fun h => ?_
      obtain ⟨_, _, h⟩ := Fresh.mem_andThen h
      refine (List.mem_append.1 h).imp iha fun h => ?_
      obtain ⟨_, _, h⟩ := Fresh.mem_andThen h
      exact ihb h
  | fix body ih =>
      rw [fixResults, List.mem_append] at h
      rw [fixBodies, List.mem_cons]
      rcases h with h | h
      · exact Or.inr (ih h)
      · obtain ⟨r, _, h⟩ := Fresh.mem_andThen h
        rw [List.mem_singleton] at h
        exact Or.inl (by rw [h])
  | list es ih =>
      rw [fixBodies, mem_fixBodiesList]
      rw [fixResults] at h
      generalize c + 1 + 1 = d at h
      induction es generalizing d with
      | nil => exact absurd h List.not_mem_nil
      | cons e es ihes =>
          rw [fixResultsList, List.mem_append] at h
          rcases h with h | h
          · exact ⟨e, List.mem_cons_self, ih e List.mem_cons_self h⟩
          · obtain ⟨_, d', h⟩ := Fresh.mem_andThen h
            obtain ⟨e', he', hmem⟩ :=
              ihes (fun e he => ih e (List.mem_cons_of_mem _ he)) d' h
            exact ⟨e', List.mem_cons_of_mem _ he', hmem⟩
  | _ => exact absurd h List.not_mem_nil

/-! ## Fixed points that are functions -/

/-- Whether inference gives all fixed points in an expression function types. -/
def Expr.fixesFunctions (Γ : Env Empty) (e : Expr) : Bool :=
  match e.inference Γ with
  | .ok r => (e.fixResults Γ 0).all fun result => (result.2.apply r.substitution).isFn
  | .error _ => true

/-- Whether inference gives all fixed points in definitions function types, each definition
in the environment left by those before it. -/
def Definition.fixesFunctions (Γ : Env Empty) : List Definition → Bool
  | [] => true
  | d :: rest =>
      d.value.fixesFunctions Γ &&
        match d.value.scheme Γ with
        | .ok σ => Definition.fixesFunctions (Γ.insert d.name σ) rest
        | .error _ => true

/-- Whether inference gives all fixed points in a program function types. -/
def Program.fixesFunctions (program : Program) : Bool :=
  Definition.fixesFunctions ∅ program.definitions &&
    match Definition.extend ∅ program.definitions with
    | .ok Γ => program.body.fixesFunctions Γ
    | .error _ => true

/-- A function type stays one under every assignment. -/
theorem Ty.isFn_inst {t : MonoTy} (h : t.isFn = true) (θ : Assignment) :
    (t.inst θ).isFn = true := by
  cases t with
  | fn argument result => rfl
  | _ => cases h

/-- A fixed point that inference gives a function type has one under every solution of the
constraints. -/
theorem Expr.isFn_of_fixesFunctions {Γ : Env Empty} {e : Expr} {r : Inference Empty}
    (h : e.inference Γ = .ok r) (hfix : e.fixesFunctions Γ = true)
    {result : Expr × MonoTy} (hresult : result ∈ e.fixResults Γ 0) {θ : Assignment}
    (hθ : Solves θ r.constraints) : (result.2.inst θ).isFn = true := by
  obtain ⟨v, c, -, hfinish⟩ := inference_eq_ok.1 h
  rw [fixesFunctions, h] at hfix
  obtain ⟨s, σ, hsolve, -, rfl⟩ := Typed.finish_eq_ok.1 hfinish
  have hfn := List.all_eq_true.1 hfix result hresult
  have habsorbed := (Constraint.mostGeneral_of_solve hsolve).absorbed hθ
  rw [← habsorbed.inst_apply]
  exact Ty.isFn_inst hfn θ

end LetPoly
