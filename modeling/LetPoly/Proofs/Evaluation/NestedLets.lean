import LetPoly.Proofs.Evaluation.Comparison
import LetPoly.Proofs.Evaluation.Limits
import LetPoly.Proofs.Evaluation.Whole

/-!
# Definitions and local definitions

A program is evaluated like the local definitions that its definitions amount to.  The two runs
give out other parameter names: each definition starts anew at the first number, while nested
local definitions go on counting.  So functions of different definitions may come with the same
parameters and meet in one run, and their values are similar only.

The two runs are compared in step, under one limit on nesting.  Local definitions nest deeper
than definitions, so at the end the limits are taken apart again.

Main results:

- Theorem {lit}`Eval.evaluate_alike`: similar expressions end alike under the same limit.
- Theorem {lit}`Program.eval_alike_toLets`: a program ends like its local definitions.
- Theorem {lit}`Program.eval_runs_like_toLets`: both give values with the same text, or fail with
  the same message.
- Theorem {lit}`Program.longCall_fails_without_message`: a failure of both that has no message.
-/

namespace LetPoly

namespace Eval

/-! ## Outcomes -/

/-- Two evaluations end alike: both with results that are related, or both with similar
errors. -/
inductive Alike {α β : Type} (R : α → β → Prop) :
    Except EvalError α → Except EvalError β → Prop where
  | ok {a : α} {b : β} (h : R a b) : Alike R (.ok a) (.ok b)
  | error {e e' : EvalError} (h : e.Similar False e') : Alike R (.error e) (.error e')

namespace Alike

variable {α β γ δ : Type} {R : α → β → Prop} {S : γ → δ → Prop}
  {x : Except EvalError α} {y z : Except EvalError β}

theorem bind (h : Alike R x y) {f : α → Except EvalError γ} {g : β → Except EvalError δ}
    (hfg : ∀ a b, R a b → Alike S (f a) (g b)) : Alike S (x >>= f) (y >>= g) := by
  cases h with
  | ok hab => exact hfg _ _ hab
  | error he => exact .error he

/-- The same for evaluations that do not nest too deeply. -/
theorem bind_of_ne (h : Alike R x y) {f : α → Except EvalError γ} {g : β → Except EvalError δ}
    (hdeep : x >>= f ≠ .error .tooDeep)
    (hfg : ∀ a b, R a b → f a ≠ .error .tooDeep → Alike S (f a) (g b)) :
    Alike S (x >>= f) (y >>= g) := by
  cases h with
  | ok hab => exact hfg _ _ hab hdeep
  | error he => exact .error he

/-- Evaluations that end alike both nest too deeply, or neither does. -/
theorem tooDeep_iff (h : Alike R x y) : x = .error .tooDeep ↔ y = .error .tooDeep := by
  cases h with
  | ok => simp
  | error he => cases he <;> simp

/-- An outcome that was not withheld may be replaced by that under a larger limit. -/
theorem of_withheld (h : Alike R x y) (hyz : Withheld y z) (hx : x ≠ .error .tooDeep) :
    Alike R x z := by
  rw [← hyz.resolve_left fun hy => hx (h.tooDeep_iff.2 hy)]
  exact h

end Alike

/-! ## Runs in step -/

/-- Evaluations end alike under a limit, whatever the parameters are numbered from. -/
def lockstep (limit : Nat) : Comparison False where
  Relates m m' R := ∀ c c',
    Alike (fun outcome outcome' => R outcome.1 outcome'.1) ((m limit).run c) ((m' limit).run c')
  ofRuns h c c' := by
    obtain ⟨a, d, b, d', hm, hm', hab⟩ := h c c'
    rw [hm, hm']
    exact .ok hab
  throw h _ _ := .error h
  bind hm hf c c' := by
    rw [StateT.run_bind, StateT.run_bind]
    exact (hm c c').bind fun outcome outcome' h => hf _ _ h outcome.2 outcome'.2

/-- Where operators are written as themselves, similar expressions apply the same operator to
all its arguments, or neither does. -/
theorem saturated?_of_similar {R : String → String → Prop} {e e' : Expr}
    (h : Expr.Similar False R e e') {p : Primitive} {args : List Expr}
    (hsaturated : saturated? e = some (p, args)) :
    saturated? e' = some (p, e'.arguments) := by
  have hoperates := Expr.Operates.of_similar hsaturated h
  exact hoperates.saturated?_eq (hoperates.head.eq_prim not_false)

theorem saturated?_eq_none_of_similar {R : String → String → Prop} {e e' : Expr}
    (h : Expr.Similar False R e e') (hnone : saturated? e = none) : saturated? e' = none := by
  rw [Option.eq_none_iff_forall_ne_some] at hnone ⊢
  rintro ⟨p, args⟩ hsome
  exact hnone _ (saturated?_of_similar (h.symm fun _ _ hab => hab) hsome)

/-- Similar expressions end alike if their parts do. -/
theorem evaluateStep_alike {limit : Nat} (hevaluate : (lockstep limit).Evaluates)
    {R : String → String → Prop} {env env' : Values} {e e' : Expr}
    (henv : Values.Similar False R env env') (he : Expr.Similar False R e e') :
    (lockstep limit).Relates (fun n => evaluateStep (evaluate n) env e)
      (fun n => evaluateStep (evaluate n) env' e') (Value.Similar False) := by
  cases hsaturated : saturated? e with
  | none =>
      simp only [evaluateStep, hsaturated, saturated?_eq_none_of_similar he hsaturated]
      exact Comparison.evaluateForm hevaluate henv he
  | some found =>
      obtain ⟨p, args⟩ := found
      obtain ⟨-, rfl, -, harity⟩ := saturated?_eq_some_iff.1 hsaturated
      simp only [evaluateStep, hsaturated, saturated?_of_similar he hsaturated]
      refine (lockstep limit).bind (Comparison.evaluateAll hevaluate henv he.spine.2) ?_
      rintro vs ws ⟨hlength, hvws⟩
      have htake : (vs.take p.arity).length = p.arity := by
        rw [List.length_take, hlength, Nat.min_eq_left harity]
      refine (lockstep limit).bind
        (Comparison.applyPrimitive hevaluate htake (List.forall₂_take _ hvws)) fun r r' hr => ?_
      exact Comparison.applyAll hevaluate hr (List.forall₂_drop _ hvws)

/-- Similar expressions end alike in similar environments, under the same limit. -/
theorem evaluate_alike (limit : Nat) : (lockstep limit).Evaluates := by
  induction limit with
  | zero => exact fun _ _ _ _ => .error .tooDeep
  | succ limit ih =>
      intro R env env' e e' henv he
      exact evaluateStep_alike ih henv he

end Eval

/-! ## Programs -/

/-- An expression ends alike in two environments that have similar values for all names. -/
theorem Expr.eval_alike {e : Expr} (hnames : ∀ x ∈ e.names, Unnumbered x) {env env' : Values}
    (henv : Values.Similar False (· = ·) env env') (limit : Nat) (c : Int) :
    Eval.Alike (fun v outcome => v.Similar False outcome.1) (e.eval limit env)
      ((Eval.evaluate limit env' e).run c) := by
  have hself : Expr.Similar False (· = ·) e e := (Respells.refl e).similar hnames fun _ _ => rfl
  rw [← bind_pure ((Eval.evaluate limit env' e).run c)]
  exact (Eval.evaluate_alike limit henv hself 0 c).bind fun _ _ h => .ok h

theorem Values.Similar.insert {values : Bindings Value} {env : Values}
    (h : Values.Similar False (· = ·) values.entries env) {v w : Value}
    (hvw : v.Similar False w) (x : String) :
    Values.Similar False (· = ·) (values.insert x v).entries ((x, w) :: env) := by
  rintro a b rfl
  change Values.Found False a a ((values.insert x v).get? a) _
  rw [Bindings.get?_insert, List.lookup_cons]
  by_cases hax : a = x
  · simp only [hax, beq_self_eq_true, if_true]
    exact .some hvw
  · rw [if_neg hax, beq_false_of_ne hax]
    exact h a a rfl

namespace Program

theorem eval_cons (limit : Nat) (values : Bindings Value) (d : Definition)
    (rest : List Definition) (body : Expr) :
    eval limit values ⟨d :: rest, body⟩ =
      d.value.eval limit values.entries >>= fun v =>
        eval limit (values.insert d.name v) ⟨rest, body⟩ := by
  rw [eval, Definition.evalAll, bind_assoc]
  rfl

/-- A program ends like the local definitions that it amounts to, which nest deeper by the number
of its definitions. -/
theorem eval_alike_toLets {definitions : List Definition} {body : Expr}
    (hnames : ∀ x ∈ names ⟨definitions, body⟩, Unnumbered x) {limit : Nat}
    {values : Bindings Value} {env : Values}
    (henv : Values.Similar False (· = ·) values.entries env) (c : Int)
    (hdeep : eval limit values ⟨definitions, body⟩ ≠ .error .tooDeep) :
    Eval.Alike (fun results outcome => results.2.Similar False outcome.1)
      (eval limit values ⟨definitions, body⟩)
      ((Eval.evaluate (limit + definitions.length) env (toLets ⟨definitions, body⟩)).run c) := by
  induction definitions generalizing values env c with
  | nil =>
      have hbody := Expr.eval_alike hnames henv limit c
      rw [← bind_pure ((Eval.evaluate _ env _).run c)]
      exact hbody.bind fun _ _ h => .ok h
  | cons d rest ih =>
      simp only [names, List.flatMap_cons, List.cons_append, List.append_assoc,
        List.forall_mem_cons, List.forall_mem_append] at hnames
      rw [eval_cons] at hdeep ⊢
      have hvalue : Eval.Alike (fun v outcome => v.Similar False outcome.1)
          (d.value.eval limit values.entries)
          ((Eval.evaluate (limit + rest.length) env d.value).run c) := by
        refine (Expr.eval_alike hnames.2.1 henv limit c).of_withheld
          (Eval.evaluate_approximates (Nat.le_add_right _ _) env env d.value (fun _ _ => rfl) c)
          fun hvalue => hdeep ?_
        rw [hvalue]
        rfl
      change Eval.Alike _ _ (StateT.run (do
        let w ← Eval.evaluate (limit + rest.length) env d.value
        Eval.evaluate (limit + rest.length) ((d.name, w) :: env) (toLets ⟨rest, body⟩)) c)
      rw [StateT.run_bind]
      refine hvalue.bind_of_ne hdeep fun v outcome hv hrest => ?_
      refine ih ?_ (henv.insert hv d.name) outcome.2 hrest
      rw [names, List.forall_mem_append]
      exact hnames.2.2

/-- A program runs like the local definitions that it amounts to: both give values that look the
same and have the same text, if any, or both fail for the same reason and with the same message,
if any.  Only what is missing from a program leads to failures that are not its own fault. -/
theorem eval_runs_like_toLets {program : Program} (hnames : ∀ x ∈ program.names, Unnumbered x)
    {m n : Nat} (hprogram : program.eval m ∅ ≠ .error .tooDeep)
    (hlets : program.toLets.eval n [] ≠ .error .tooDeep) :
    (∃ values v w, program.eval m ∅ = .ok (values, v) ∧ program.toLets.eval n [] = .ok w ∧
        v.outline = w.outline ∧ v.render = w.render) ∨
      ∃ error error', program.eval m ∅ = .error error ∧
        program.toLets.eval n [] = .error error' ∧ error.message = error'.message ∧
        error.isReported = error'.isReported ∧ (program.Whole → error.isReported = true) := by
  -- both runs are taken to limits under which they can be compared
  let limit := max m n
  have hsame := (eval_withheld (le_max_left m n : m ≤ limit) ∅ program).resolve_left hprogram
  have hdeeper : n ≤ limit + program.definitions.length :=
    (le_max_right m n).trans (Nat.le_add_right _ _)
  have hsame' := (Expr.eval_withheld hdeeper [] program.toLets).resolve_left hlets
  have halike := eval_alike_toLets hnames .nil 0 (hsame ▸ hprogram)
  have hresults : Eval.Alike (fun results w => results.2.Similar False w) (program.eval m ∅)
      (program.toLets.eval n []) := by
    rw [hsame, hsame', ← bind_pure (program.eval limit ∅)]
    exact halike.bind fun _ _ h => .ok h
  have hwhole := fun h : program.Whole => eval_whole h m
  revert hresults hwhole
  generalize program.eval m ∅ = outcome
  generalize program.toLets.eval n [] = outcome'
  intro hresults hwhole
  cases hresults with
  | @ok results w h =>
      refine Or.inl ⟨results.1, results.2, w, rfl, rfl, h.outline_eq, ?_⟩
      exact Value.render_eq_of_outline_eq h.outline_eq
  | error h => exact Or.inr ⟨_, _, rfl, rfl, h.message_eq, h.isReported_eq, hwhole⟩

/-- Definitions whose functions have parameters with the same numbers. -/
def clashing (body : Expr) : Program where
  definitions := [
    ⟨"next", .app (.prim .add) (.int 1)⟩,
    ⟨"minus", .prim .sub⟩,
    ⟨"count", .fix (.lam "count" (.lam "n"
      (.ifThenElse ((Expr.prim .eql).apps [.var "n", .int 0]) (.int 0)
        (.app (.var "next") (.app (.var "count")
          ((Expr.var "minus").apps [.var "n", .int 1]))))))⟩]
  body := body

/-- A pair of a number and a function. -/
def counted : Expr :=
  (Expr.prim .pair).apps [.app (.var "count") (.int 2), .app (.prim .map) (.var "next")]

/-- The number after a function. -/
def miscounted : Expr :=
  .app (.var "next") (.var "minus")

/-- Once the functions work together, once they are misused. -/
theorem eval_runs_like_toLets_clashing :
    (∀ x ∈ (clashing counted).names, Unnumbered x) ∧
      (∀ x ∈ (clashing miscounted).names, Unnumbered x) ∧
      (∃ values v w, (clashing counted).eval 20 ∅ = .ok (values, v) ∧
        (clashing counted).toLets.eval 20 [] = .ok w ∧
        v.outline = w.outline ∧ v.render = w.render) ∧
      ∃ error error', (clashing miscounted).eval 20 ∅ = .error error ∧
        (clashing miscounted).toLets.eval 20 [] = .error error' ∧
        error.message = error'.message := by
  have hcounted : ∀ x ∈ (clashing counted).names, Unnumbered x := by decide
  have hmiscounted : ∀ x ∈ (clashing miscounted).names, Unnumbered x := by decide
  have hvalue : ∃ values v w, (clashing counted).eval 20 ∅ = .ok (values, v) ∧
      (clashing counted).toLets.eval 20 [] = .ok w := ⟨_, _, _, rfl, rfl⟩
  have herror : ∃ v w, (clashing miscounted).eval 20 ∅ = .error (.wrongArgument .add v) ∧
      (clashing miscounted).toLets.eval 20 [] = .error (.wrongArgument .add w) :=
    ⟨_, _, rfl, rfl⟩
  obtain ⟨values, v, w, hv, hw⟩ := hvalue
  obtain ⟨f, g, hf, hg⟩ := herror
  refine ⟨hcounted, hmiscounted, ?_, ?_⟩
  · rcases eval_runs_like_toLets hcounted (by rw [hv]; simp) (by rw [hw]; simp) with h | h
    · exact h
    · obtain ⟨error, -, h, -⟩ := h
      cases hv.symm.trans h
  · rcases eval_runs_like_toLets hmiscounted (by rw [hf]; simp) (by rw [hg]; simp) with h | h
    · obtain ⟨values, v, -, h, -⟩ := h
      cases hf.symm.trans h
    · obtain ⟨error, error', h, h', hmessage, -⟩ := h
      exact ⟨error, error', h, h', hmessage⟩

/-! ## Values without a text -/

/-- A function that is given two numbers squares the first. -/
def squareBody : Expr :=
  .lam "y" ((Expr.prim .mul).apps [.var "x", .var "x"])

/-- A number of more than eight thousand digits, by a function that squares: ten, squared thirteen
times. -/
def longNumber (square : Expr) : Expr :=
  (Expr.prim .foldl).apps [square, .int 10, .list (List.replicate 13 (.int 0))]

/-- The long number is applied to an argument, as if it were a function. -/
def longCall : Program where
  definitions := [⟨"square", .lam "x" squareBody⟩]
  body := .letIn "long" (longNumber (.var "square")) (.app (.var "long") (.int 1))

theorem exists_run_longNumber :
    ∃ v c tooLong, (Eval.evaluate 9 [("square", .closure "x" squareBody [])]
        (longNumber (.var "square"))).run 0 = .ok (v, c) ∧ v.render = .error tooLong := by
  have hrun : ((Eval.evaluate 9 [("square", .closure "x" squareBody [])]
      (longNumber (.var "square"))).run 0).toOption.map
        (fun outcome => outcome.1.render.toOption) = some none := by
    decide +kernel
  revert hrun
  cases (Eval.evaluate 9 [("square", .closure "x" squareBody [])]
    (longNumber (.var "square"))).run 0 with
  | error error => exact nofun
  | ok outcome =>
      cases hrender : outcome.1.render with
      | error tooLong => exact fun _ => ⟨outcome.1, outcome.2, tooLong, rfl, hrender⟩
      | ok text => simp [Except.toOption, hrender]

/-- Both runs fail, and neither failure has a message: it would quote the number. -/
theorem longCall_fails_without_message :
    (∀ x ∈ longCall.names, Unnumbered x) ∧ longCall.eval 10 ∅ ≠ .error .tooDeep ∧
      longCall.toLets.eval 11 [] ≠ .error .tooDeep ∧
      ¬((∃ values v w text, longCall.eval 10 ∅ = .ok (values, v) ∧
          longCall.toLets.eval 11 [] = .ok w ∧ v.render = .ok text ∧ w.render = .ok text) ∨
        ∃ error error' message, longCall.eval 10 ∅ = .error error ∧
          longCall.toLets.eval 11 [] = .error error' ∧ error.message = .ok message ∧
          error'.message = .ok message) := by
  obtain ⟨v, c, tooLong, hrun, hrender⟩ := exists_run_longNumber
  -- in both runs the body is evaluated under the same limit, from the same number
  have hbody : (Eval.evaluate 10 [("square", .closure "x" squareBody [])] longCall.body).run 0 =
      .error (.notFunction v) := by
    change StateT.run (Eval.evaluate 9 _ (longNumber (.var "square")) >>= fun w =>
      Eval.evaluate 9 (("long", w) :: _) (.app (.var "long") (.int 1))) 0 = _
    rw [StateT.run_bind, hrun]
    cases v with
    | closure => cases hrender
    | _ => rfl
  have hprogram : longCall.eval 10 ∅ = .error (.notFunction v) := by
    change (longCall.body.eval 10 [("square", .closure "x" squareBody [])] >>= fun w =>
      .ok ((∅ : Bindings Value).insert "square" (.closure "x" squareBody []), w)) = _
    rw [Expr.eval, StateT.run'_eq, hbody]
    rfl
  have hlets : longCall.toLets.eval 11 [] = .error (.notFunction v) := by
    change longCall.body.eval 10 [("square", .closure "x" squareBody [])] = _
    rw [Expr.eval, StateT.run'_eq, hbody]
    rfl
  have hmessage : (EvalError.notFunction v).message = .error tooLong := by
    rw [EvalError.message, hrender]
    rfl
  refine ⟨by decide, by rw [hprogram]; simp, by rw [hlets]; simp, ?_⟩
  rintro (⟨_, _, _, _, h, -⟩ | ⟨_, _, _, h, -, hworded, -⟩)
  · cases hprogram.symm.trans h
  · cases hprogram.symm.trans h
    cases hmessage.symm.trans hworded

end Program

end LetPoly
