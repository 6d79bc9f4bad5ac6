import LetPoly.Proofs.Evaluation.Step

/-!
# Evaluation and free variables

The outcome of evaluation depends on the values of the free variables alone.  This is why a
closure may hold the values of the names that its body uses and no others, and why a local
definition does what the application of a function does.

Both facts come from one walk over the evaluator.  It compares evaluations in environments
that agree on the free variables, the second under a limit on nesting that is not smaller:
the first evaluation ends as the second does, unless it nests too deeply.

Main results:

- Theorem {lit}`Eval.evaluate_approximates`: the comparison, for all expressions.
- Theorem {lit}`Eval.evaluate_letIn_eq_app`: a local definition and the application of a
  function to its value have the same outcome under the same limit.
- Theorem {lit}`Eval.evaluate_depends_on_freeVars`: both facts, whatever the limits.
-/

namespace LetPoly

/-! ## Agreeing environments -/

/-- Two environments give the same values to some names, or both give none. -/
def Values.AgreeOn (names : OrderedSet String) (env₁ env₂ : Values) : Prop :=
  ∀ x ∈ names, env₁.lookup x = env₂.lookup x

namespace Values.AgreeOn

variable {names names' : OrderedSet String} {env₁ env₂ : Values}

/-- Environments that agree on names agree on fewer names. -/
theorem mono (h : AgreeOn names env₁ env₂) (hsub : ∀ x ∈ names', x ∈ names) :
    AgreeOn names' env₁ env₂ :=
  fun x hx => h x (hsub x hx)

/-- Environments that agree apart from a name agree once it is bound. -/
theorem cons {x : String} (h : AgreeOn (names.erase x) env₁ env₂) (v : Value) :
    AgreeOn names ((x, v) :: env₁) ((x, v) :: env₂) := by
  intro y hy
  simp only [List.lookup_cons]
  by_cases hyx : y = x
  · simp [hyx]
  · rw [h y (OrderedSet.mem_erase.2 ⟨hy, hyx⟩)]

/-- Environments that agree on names are the same for a function that has only these. -/
theorem restrict_eq (h : AgreeOn names env₁ env₂) :
    Eval.restrict env₁ names = Eval.restrict env₂ names :=
  List.filterMap_congr fun x hx => by rw [h x (OrderedSet.mem_toList.1 hx)]

end Values.AgreeOn

namespace Eval

/-- Agreeing environments give the same closures. -/
theorem close_congr {env₁ env₂ : Values} {x : String} {body : Expr}
    (h : Values.AgreeOn (body.freeVars.erase x) env₁ env₂) :
    close env₁ x body = close env₂ x body := by
  unfold close usedNames
  split_ifs
  · rfl
  · exact congrArg (fun captured => (pure (.closure x body captured) : Eval Value)) h.restrict_eq

/-! ## Approximation -/

/-- An evaluation ends as another one does, unless it nests too deeply. -/
def Approximates {α : Type} (m₁ m₂ : Eval α) : Prop :=
  ∀ c, m₁.run c = .error .tooDeep ∨ m₁.run c = m₂.run c

namespace Approximates

variable {α β : Type} {m₁ m₂ : Eval α}

/-- An evaluation approximates itself. -/
theorem refl (m : Eval α) : Approximates m m :=
  fun _ => .inr rfl

/-- Sequences approximate each other if their parts do. -/
theorem bind (hm : Approximates m₁ m₂) {k₁ k₂ : α → Eval β}
    (hk : ∀ a, Approximates (k₁ a) (k₂ a)) : Approximates (m₁ >>= k₁) (m₂ >>= k₂) := by
  intro c
  rw [StateT.run_bind, StateT.run_bind]
  rcases hm c with hdeep | hsame
  · rw [hdeep]
    exact .inl rfl
  · rw [hsame]
    cases m₂.run c with
    | error e => exact .inr rfl
    | ok r => exact hk r.1 r.2

/-- Evaluations that approximate each other have the same outcomes. -/
theorem antisymm (h : Approximates m₁ m₂) (h' : Approximates m₂ m₁) : m₁ = m₂ := by
  funext c
  rcases h c with hdeep | hsame
  · rcases h' c with hdeep' | hsame'
    · exact hdeep.trans hdeep'.symm
    · exact hsame'.symm
  · exact hsame

end Approximates

/-! ## One level of evaluation -/

section Step

variable {f g : Values → Expr → Eval Value}
  (hfg : ∀ env₁ env₂ e, Values.AgreeOn e.freeVars env₁ env₂ → Approximates (f env₁ e) (g env₂ e))

include hfg

/-- Applying a function evaluates its body, and nothing else. -/
theorem apply_approximates (function argument : Value) :
    Approximates (apply f function argument) (apply g function argument) := by
  cases function with
  | closure x body env => exact hfg _ _ body fun _ _ => rfl
  | _ => exact .refl _

theorem applyAll_approximates (function : Value) (arguments : List Value) :
    Approximates (applyAll f function arguments) (applyAll g function arguments) := by
  induction arguments generalizing function with
  | nil => exact .refl _
  | cons argument rest ih => exact (apply_approximates hfg function argument).bind ih

theorem mapList_approximates (function : Value) (elements : List Value) :
    Approximates (mapList f function elements) (mapList g function elements) := by
  induction elements with
  | nil => exact .refl _
  | cons element rest ih =>
      exact (apply_approximates hfg function element).bind fun _ => ih.bind fun _ => .refl _

theorem foldList_approximates (function accumulator : Value) (elements : List Value) :
    Approximates (foldList f function accumulator elements)
      (foldList g function accumulator elements) := by
  induction elements generalizing accumulator with
  | nil => exact .refl _
  | cons element rest ih =>
      refine (apply_approximates hfg function accumulator).bind fun partially => ?_
      exact (apply_approximates hfg partially element).bind ih

/-- Operators evaluate only through the functions that they are given. -/
theorem applyPrimitive_approximates (p : Primitive) (arguments : List Value) :
    Approximates (applyPrimitive f p arguments) (applyPrimitive g p arguments) := by
  unfold applyPrimitive
  split
  -- the two operators that call functions, and those that do not
  case h_7 function items =>
      refine (Approximates.refl (expectList .map items)).bind fun elements => ?_
      exact (mapList_approximates hfg function elements).bind fun _ => .refl _
  case h_8 function accumulator items =>
      refine (Approximates.refl (expectList .foldl items)).bind fun elements => ?_
      exact foldList_approximates hfg function accumulator elements
  all_goals exact .refl _

/-- Expressions one after the other, each in environments that agree on its free variables. -/
theorem evaluateAll_approximates {env₁ env₂ : Values} {es : List Expr}
    (h : ∀ e ∈ es, Values.AgreeOn e.freeVars env₁ env₂) :
    Approximates (evaluateAll f env₁ es) (evaluateAll g env₂ es) := by
  induction es with
  | nil => exact .refl _
  | cons e es ih =>
      obtain ⟨he, hes⟩ := List.forall_mem_cons.1 h
      exact (hfg env₁ env₂ e he).bind fun _ => (ih hes).bind fun _ => .refl _

/-- One level of evaluation looks up free variables only, and hands to each part an environment that
agrees on the part's own. -/
theorem evaluateForm_approximates {env₁ env₂ : Values} {e : Expr}
    (h : Values.AgreeOn e.freeVars env₁ env₂) :
    Approximates (evaluateForm f env₁ e) (evaluateForm g env₂ e) := by
  cases e with
  | var x =>
      rw [evaluateForm, evaluateForm, h x (Expr.mem_freeVars_var.2 rfl)]
      exact .refl _
  | lam x body =>
      rw [evaluateForm, evaluateForm, close_congr h]
      exact .refl _
  | letIn x value body =>
      refine (hfg env₁ env₂ value (h.mono (by simp +contextual))).bind fun v => ?_
      exact hfg _ _ body (Values.AgreeOn.cons (h.mono (by simp +contextual)) v)
  | ifThenElse test onTrue onFalse =>
      refine (hfg env₁ env₂ test (h.mono (by simp +contextual))).bind fun v => ?_
      split
      · exact hfg env₁ env₂ onTrue (h.mono (by simp +contextual))
      · exact hfg env₁ env₂ onFalse (h.mono (by simp +contextual))
      · exact .refl _
  | list elements =>
      refine (evaluateAll_approximates hfg fun e he => ?_).bind fun _ => .refl _
      exact h.mono fun x hx => Expr.mem_freeVars_list.2 ⟨e, he, hx⟩
  | app function argument =>
      refine (hfg env₁ env₂ function (h.mono (by simp +contextual))).bind fun v => ?_
      refine (hfg env₁ env₂ argument (h.mono (by simp +contextual))).bind fun w => ?_
      exact apply_approximates hfg v w
  | fix body =>
      refine (hfg env₁ env₂ body (h.mono (by simp))).bind fun function => ?_
      refine (Approximates.refl _).bind fun parameter => ?_
      -- the closure of the next step uses what the fixed point uses, and its own parameter
      have hnext : Values.AgreeOn
          ((Expr.app (.fix body) (.var parameter)).freeVars.erase parameter) env₁ env₂ := by
        refine h.mono fun x hx => ?_
        obtain ⟨hx, hne⟩ := OrderedSet.mem_erase.1 hx
        simpa [hne] using hx
      rw [close_congr hnext]
      exact (Approximates.refl _).bind (apply_approximates hfg function)
  | _ => exact .refl _

/-- One level of evaluation keeps the comparison. -/
theorem evaluateStep_approximates {env₁ env₂ : Values} {e : Expr}
    (h : Values.AgreeOn e.freeVars env₁ env₂) :
    Approximates (evaluateStep f env₁ e) (evaluateStep g env₂ e) := by
  unfold evaluateStep
  split
  next p arguments hsaturated =>
    obtain ⟨rfl, -, -⟩ := of_saturated? hsaturated
    have harguments : ∀ a ∈ arguments, Values.AgreeOn a.freeVars env₁ env₂ := fun a ha =>
      h.mono fun x hx => Expr.mem_freeVars_apps.2 (.inr ⟨a, ha, hx⟩)
    refine (evaluateAll_approximates hfg harguments).bind fun values => ?_
    refine (applyPrimitive_approximates hfg p (values.take p.arity)).bind fun result => ?_
    exact applyAll_approximates hfg result (values.drop p.arity)
  next => exact evaluateForm_approximates hfg h

end Step

/-! ## Whole evaluations -/

/-- Evaluation in an environment that agrees on the free variables, under a limit that is
not smaller, has the same outcome, unless the first one nests too deeply. -/
theorem evaluate_approximates {m n : Nat} (hmn : m ≤ n) (env₁ env₂ : Values) (e : Expr)
    (h : Values.AgreeOn e.freeVars env₁ env₂) :
    Approximates (evaluate m env₁ e) (evaluate n env₂ e) := by
  induction m generalizing n env₁ env₂ e with
  | zero => exact fun _ => .inl rfl
  | succ m ih =>
      obtain ⟨n, rfl⟩ := Nat.exists_eq_add_one_of_ne_zero (Nat.ne_of_gt (by omega : 0 < n))
      exact evaluateStep_approximates (ih (Nat.le_of_succ_le_succ hmn)) h

/-- What is evaluated depends on the values of free variables alone. -/
theorem evaluate_congr (limit : Nat) {env₁ env₂ : Values} {e : Expr}
    (h : Values.AgreeOn e.freeVars env₁ env₂) :
    evaluate limit env₁ e = evaluate limit env₂ e :=
  (evaluate_approximates le_rfl env₁ env₂ e h).antisymm
    (evaluate_approximates le_rfl env₂ env₁ e fun x hx => (h x hx).symm)

/-- The body of a function loses nothing when the names that it does not use are dropped. -/
theorem evaluate_restrict (limit : Nat) (env : Values) (x : String) (v : Value) (body : Expr) :
    evaluate limit ((x, v) :: restrict env (body.freeVars.erase x)) body =
      evaluate limit ((x, v) :: env) body :=
  evaluate_congr limit (Values.AgreeOn.cons (fun _ hy => lookup_restrict env _ hy) v)

/-- A local definition does what the application of a function to its value does.  The body
has no missing parts: a function whose body lacks a part has no closure, even where the part
is never reached. -/
theorem evaluate_letIn_eq_app (limit : Nat) (env : Values) (x : String) (value : Expr)
    {body : Expr} (hbody : body.hasHole = false) :
    evaluate limit env (.letIn x value body) = evaluate limit env (.app (.lam x body) value) := by
  match limit with
  | 0 | 1 => rfl
  | limit + 2 =>
      have hclose : evaluate (limit + 1) env (.lam x body) =
          pure (.closure x body (restrict env (body.freeVars.erase x))) :=
        close_eq_pure hbody env x
      have happ : evaluate (limit + 2) env (.app (.lam x body) value) = (do
          let function ← evaluate (limit + 1) env (.lam x body)
          let argument ← evaluate (limit + 1) env value
          apply (evaluate (limit + 1)) function argument) := rfl
      rw [happ, hclose, pure_bind]
      change (evaluate (limit + 1) env value >>= _) = _
      refine congrArg (evaluate (limit + 1) env value >>= ·) (funext fun v => ?_)
      exact (evaluate_restrict (limit + 1) env x v body).symm

/-- The outcome of evaluation depends on the values of the free variables alone: it is the
same in environments that agree on them.  So a local definition whose body has no missing
parts and the application of a function to its value have the same outcome, under any limits
that suffice for both. -/
theorem evaluate_depends_on_freeVars :
    (∀ (limit : Nat) (c : Int) (e : Expr) (env₁ env₂ : Values),
      (∀ x ∈ e.freeVars, env₁.lookup x = env₂.lookup x) →
        (evaluate limit env₁ e).run c = (evaluate limit env₂ e).run c) ∧
    ∀ (m n : Nat) (c : Int) (env : Values) (x : String) (value body : Expr),
      body.hasHole = false →
      (evaluate m env (.letIn x value body)).run c ≠ .error .tooDeep →
      (evaluate n env (.app (.lam x body) value)).run c ≠ .error .tooDeep →
        (evaluate m env (.letIn x value body)).run c =
          (evaluate n env (.app (.lam x body) value)).run c := by
  constructor
  · intro limit c e env₁ env₂ h
    rw [evaluate_congr limit h]
  · intro m n c env x value body hbody hlet happ
    -- a limit that is enough for one is enough for the larger of the two
    have hraise : ∀ {k : Nat} {e : Expr}, k ≤ max m n →
        (evaluate k env e).run c ≠ .error .tooDeep →
        (evaluate k env e).run c = (evaluate (max m n) env e).run c := fun hk hdeep =>
      (evaluate_approximates hk env env _ (fun _ _ => rfl) c).resolve_left hdeep
    rw [hraise (le_max_left m n) hlet, hraise (le_max_right m n) happ,
      evaluate_letIn_eq_app _ env x value hbody]

/-- A function that uses its parameter and one more name. -/
def addsStep : Expr :=
  .lam "x" ((Expr.prim .add).apps [.var "x", .var "step"])

/-- A function that hides a name is the same closure whatever the value of the name outside,
and a local definition has the value of an application under another limit. -/
theorem evaluate_depends_on_freeVars_addsStep :
    Values.AgreeOn addsStep.freeVars [("x", .int 1), ("step", .int 2)]
        [("step", .int 2), ("x", .bool true)] ∧
      (evaluate 1 [("x", .int 1), ("step", .int 2)] addsStep).run 0 =
        (evaluate 1 [("step", .int 2), ("x", .bool true)] addsStep).run 0 ∧
    (evaluate 4 [("step", .int 2)] (.letIn "f" addsStep (.app (.var "f") (.var "step")))).run 0 =
        .ok (.int 4, 0) ∧
      (evaluate 4 [("step", .int 2)] (.letIn "f" addsStep (.app (.var "f") (.var "step")))).run 0 =
        (evaluate 9 [("step", .int 2)]
          (.app (.lam "f" (.app (.var "f") (.var "step"))) addsStep)).run 0 := by
  have hfree : ∀ x, x ∈ addsStep.freeVars ↔ x = "step" := fun _ => List.mem_singleton
  have hagree : Values.AgreeOn addsStep.freeVars [("x", .int 1), ("step", .int 2)]
      [("step", .int 2), ("x", .bool true)] := by
    intro x hx
    rw [(hfree x).1 hx]
    rfl
  have hlet : (evaluate 4 [("step", .int 2)]
      (.letIn "f" addsStep (.app (.var "f") (.var "step")))).run 0 = .ok (.int 4, 0) := rfl
  have happ : (evaluate 9 [("step", .int 2)]
      (.app (.lam "f" (.app (.var "f") (.var "step"))) addsStep)).run 0 = .ok (.int 4, 0) := rfl
  refine ⟨hagree, evaluate_depends_on_freeVars.1 1 0 addsStep _ _ hagree, hlet, ?_⟩
  exact evaluate_depends_on_freeVars.2 4 9 0 _ "f" addsStep _ rfl (by rw [hlet]; simp)
    (by rw [happ]; simp)

end Eval

end LetPoly
