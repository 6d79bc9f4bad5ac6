import LetPoly.Proofs.Inference.Variables
import Mathlib.Logic.Relation

/-!
# Calls of inference

Inference on an expression calls itself on the parts of the expression, each time in an
environment and with the counter where the calls before it left it.  The calls are listed by a
relation, also those of a run that fails later on, and the relation leaves none out: what
inference answers is decided by what the listed calls answer.

Every call keeps the discipline on names.  What it answers mentions free variables of its
environment and variables that it made, and a substitution into an environment captures
nothing.  A substitution into any scheme may well capture a variable; here none does, because
the variables that are free in an environment, those that are quantified in it and those that
are still to be made are kept apart from call to call.

Main results:

- Theorem {lit}`InferCall.decidedByCalls`: the outcome of a call is decided by the calls that it
  makes.
- Theorem {lit}`InferCall.Makes.apart`: a call keeps environments apart from what is made later.
- Theorem {lit}`InferCall.keeps_discipline`: the discipline on names, for all calls of a run.
-/

namespace LetPoly

/-- A call of inference. -/
structure InferCall where
  /-- The environment. -/
  env : Env Empty
  /-- The number of the last type variable that was made. -/
  count : Int
  /-- The expression. -/
  expr : Expr

namespace InferCall

open LetPoly.Expr (Infers InfersAll)

/-- A call makes another one.  A call for a later part of an expression is made once those for
the earlier parts have succeeded. -/
inductive Makes : InferCall → InferCall → Prop where
  /-- The body of a function, with a new variable for the parameter. -/
  | lam (Γ : Env Empty) (c : Int) (x : String) (body : Expr) :
      Makes ⟨Γ, c, .lam x body⟩ ⟨Γ.insert x (.mono (.var (typeVarName (c + 1)))), c + 1, body⟩
  /-- The function of an application. -/
  | function (Γ : Env Empty) (c : Int) (f a : Expr) : Makes ⟨Γ, c, .app f a⟩ ⟨Γ, c, f⟩
  /-- The argument of an application. -/
  | argument {Γ : Env Empty} {c c₁ : Int} {f : Expr} {rf : Typed Empty}
      (hf : Infers Γ c f rf c₁) (a : Expr) : Makes ⟨Γ, c, .app f a⟩ ⟨Γ, c₁, a⟩
  /-- The value of a local definition. -/
  | value (Γ : Env Empty) (c : Int) (x : String) (value body : Expr) :
      Makes ⟨Γ, c, .letIn x value body⟩ ⟨Γ, c, value⟩
  /-- The body of a local definition, in the environment with the solved value. -/
  | scope {Γ : Env Empty} {c c₁ : Int} {value : Expr} {v : Typed Empty} {s : Subst Empty}
      (hv : Infers Γ c value v c₁) (hs : Constraint.solve v.constraints = .ok s) (x : String)
      (body : Expr) : Makes ⟨Γ, c, .letIn x value body⟩ ⟨Γ.bindSolved s x v.type, c₁, body⟩
  /-- The test of a choice. -/
  | test (Γ : Env Empty) (c : Int) (test onTrue onFalse : Expr) :
      Makes ⟨Γ, c, .ifThenElse test onTrue onFalse⟩ ⟨Γ, c, test⟩
  /-- The first branch of a choice. -/
  | onTrue {Γ : Env Empty} {c c₁ : Int} {test : Expr} {t : Typed Empty}
      (ht : Infers Γ c test t c₁) (onTrue onFalse : Expr) :
      Makes ⟨Γ, c, .ifThenElse test onTrue onFalse⟩ ⟨Γ, c₁, onTrue⟩
  /-- The second branch of a choice. -/
  | onFalse {Γ : Env Empty} {c c₁ c₂ : Int} {test onTrue : Expr} {t a : Typed Empty}
      (ht : Infers Γ c test t c₁) (ha : Infers Γ c₁ onTrue a c₂) (onFalse : Expr) :
      Makes ⟨Γ, c, .ifThenElse test onTrue onFalse⟩ ⟨Γ, c₂, onFalse⟩
  /-- The body of a fixed point. -/
  | fix (Γ : Env Empty) (c : Int) (body : Expr) : Makes ⟨Γ, c, .fix body⟩ ⟨Γ, c, body⟩
  /-- An element of a list, behind some others. -/
  | element {Γ : Env Empty} {c c₁ : Int} {before : List Expr} {C : List (Constraint Empty)}
      (hbefore : InfersAll Γ (c + 1 + 1) (.var (typeVarName (c + 1 + 1))) before C c₁)
      (e : Expr) (after : List Expr) :
      Makes ⟨Γ, c, .list (before ++ e :: after)⟩ ⟨Γ, c₁, e⟩

/-- A call is made during the run of another one, directly or by a call that is. -/
def During (start call : InferCall) : Prop :=
  Relation.ReflTransGen Makes start call

end InferCall

/-! ## No call is left out -/

namespace Expr

/-- A way to infer types of expressions, for the calls that inference makes. -/
abbrev Inferrer :=
  Env Empty → Expr → Fresh Empty (Typed Empty)

/-- The constraints of list elements, where the elements are left to a given way to infer. -/
def inferElementsVia (self : Inferrer) (Γ : Env Empty) (element : MonoTy) :
    List Expr → Fresh Empty (List (Constraint Empty))
  | [] => return []
  | e :: rest => do
      let t ← self Γ e
      let constraints ← inferElementsVia self Γ element rest
      return t.constraints ++ ⟨t.type, element⟩ :: constraints

/-- One step of inference, where the parts of the expression are left to a given way to
infer. -/
def inferVia (self : Inferrer) (Γ : Env Empty) : Expr → Fresh Empty (Typed Empty)
  | .lam parameter body => do
      let a ← Fresh.var
      let b ← self (Γ.insert parameter (.mono a)) body
      return { type := .fn a b.type, constraints := b.constraints }
  | .app function argument => do
      let f ← self Γ function
      let a ← self Γ argument
      let result ← Fresh.var
      return {
        type := result
        constraints := f.constraints ++ a.constraints ++ [⟨f.type, .fn a.type result⟩] }
  | .letIn name value body => do
      let v ← self Γ value
      let bodyEnv ← Fresh.lift (v.bindIn Γ name)
      let b ← self bodyEnv body
      return { type := b.type, constraints := v.constraints ++ b.constraints }
  | .ifThenElse test onTrue onFalse => do
      let t ← self Γ test
      let a ← self Γ onTrue
      let b ← self Γ onFalse
      return {
        type := a.type
        constraints := t.constraints ++ a.constraints ++ b.constraints ++
          [⟨t.type, .bool⟩, ⟨a.type, b.type⟩] }
  | .fix body => do
      let b ← self Γ body
      let result ← Fresh.var
      return {
        type := result
        constraints := b.constraints ++ [⟨b.type, .fn result result⟩] }
  | .list elements => do
      let whole ← Fresh.var
      let element ← Fresh.var
      let constraints ← inferElementsVia self Γ element elements
      return { type := whole, constraints := constraints ++ [⟨whole, .list element⟩] }
  | e => e.infer Γ

theorem inferElementsVia_infer (Γ : Env Empty) (element : MonoTy) (es : List Expr) :
    inferElementsVia (fun Γ e => e.infer Γ) Γ element es = inferElements Γ element es := by
  induction es with
  | nil => rw [inferElementsVia, inferElements]
  | cons e es ih => rw [inferElementsVia, inferElements, ih]

/-- Inference takes steps that leave the parts of an expression to inference. -/
theorem inferVia_infer (Γ : Env Empty) (e : Expr) :
    e.inferVia (fun Γ e => e.infer Γ) Γ = e.infer Γ := by
  cases e with
  | list es =>
      rw [inferVia, infer]
      simp only [inferElementsVia_infer]
  | lam | app | letIn | ifThenElse | fix => rw [inferVia, infer]
  | var | int | bool | prim | hole => rfl

end Expr

/-- Two checks in a row have the same outcome when the first ones have, and the second ones
behind a success of the first. -/
theorem Fresh.run_bind_congr {α β : Type} {x y : Fresh Empty α} {f g : α → Fresh Empty β}
    {c : Int} (hxy : x.run c = y.run c)
    (hfg : ∀ a c', y.run c = .ok a c' → (f a).run c' = (g a).run c') :
    (x >>= f).run c = (y >>= g).run c := by
  rw [EStateM.run_bind, EStateM.run_bind, hxy]
  cases hy : y.run c with
  | ok a c' => exact hfg a c' hy
  | error error c' => rfl

namespace InferCall

open LetPoly.Expr (Inferrer Infers InfersAll)

/-- A way to infer answers a call as inference does. -/
def AnsweredBy (call : InferCall) (self : Inferrer) : Prop :=
  (self call.env call.expr).run call.count = (call.expr.infer call.env).run call.count

theorem run_inferElementsVia_eq {self : Inferrer} {Γ : Env Empty} {element : MonoTy}
    {es : List Expr} {c : Int}
    (h : ∀ before e after C c₁, es = before ++ e :: after →
      InfersAll Γ c element before C c₁ → AnsweredBy ⟨Γ, c₁, e⟩ self) :
    (Expr.inferElementsVia self Γ element es).run c =
      (Expr.inferElements Γ element es).run c := by
  induction es generalizing c with
  | nil => rw [Expr.inferElementsVia, Expr.inferElements]
  | cons e es ih =>
      rw [Expr.inferElementsVia, Expr.inferElements]
      have hfirst : AnsweredBy ⟨Γ, c, e⟩ self :=
        h [] e es [] c rfl (Expr.infersAll_nil.2 ⟨rfl, rfl⟩)
      refine Fresh.run_bind_congr hfirst fun t c₁ ht => ?_
      refine Fresh.run_bind_congr (ih ?_) fun _ _ _ => rfl
      intro before e' after C c₂ heq hbefore
      exact h (e :: before) e' after _ c₂ (by rw [heq, List.cons_append])
        (Expr.infersAll_cons.2 ⟨t, c₁, C, ht, hbefore, rfl⟩)

/-- The outcome of a call is decided by the calls that it makes: a step that leaves the parts
to any way to infer has the same outcome, if these calls are answered as inference does. -/
def DecidedByCalls (call : InferCall) : Prop :=
  ∀ self : Inferrer, (∀ call', call.Makes call' → call'.AnsweredBy self) →
    (call.expr.inferVia self call.env).run call.count =
      (call.expr.infer call.env).run call.count

theorem decidedByCalls (call : InferCall) : call.DecidedByCalls := by
  intro self h
  obtain ⟨Γ, c, e⟩ := call
  cases e with
  | var | int | bool | prim | hole => rfl
  | lam x body =>
      rw [← Expr.inferVia_infer, Expr.inferVia, Expr.inferVia]
      refine Fresh.run_bind_congr rfl fun a c₁ ha => ?_
      obtain ⟨rfl, rfl⟩ := Fresh.run_var_eq_ok.1 ha
      exact Fresh.run_bind_congr (h _ (.lam Γ c x body)) fun _ _ _ => rfl
  | app f a =>
      rw [← Expr.inferVia_infer, Expr.inferVia, Expr.inferVia]
      refine Fresh.run_bind_congr (h _ (.function Γ c f a)) fun rf c₁ hf => ?_
      exact Fresh.run_bind_congr (h _ (.argument hf a)) fun _ _ _ => rfl
  | letIn x value body =>
      rw [← Expr.inferVia_infer, Expr.inferVia, Expr.inferVia]
      refine Fresh.run_bind_congr (h _ (.value Γ c x value body)) fun v c₁ hv => ?_
      refine Fresh.run_bind_congr rfl fun Δ c₂ hΔ => ?_
      obtain ⟨hbind, rfl⟩ := Fresh.run_lift_eq_ok.1 hΔ
      obtain ⟨s, hs, rfl⟩ := Typed.bindIn_eq_ok.1 hbind
      exact Fresh.run_bind_congr (h _ (.scope hv hs x body)) fun _ _ _ => rfl
  | ifThenElse test onTrue onFalse =>
      rw [← Expr.inferVia_infer, Expr.inferVia, Expr.inferVia]
      refine Fresh.run_bind_congr (h _ (.test Γ c test onTrue onFalse)) fun t c₁ ht => ?_
      refine Fresh.run_bind_congr (h _ (.onTrue ht onTrue onFalse)) fun a c₂ ha => ?_
      exact Fresh.run_bind_congr (h _ (.onFalse ht ha onFalse)) fun _ _ _ => rfl
  | fix body =>
      rw [← Expr.inferVia_infer, Expr.inferVia, Expr.inferVia]
      exact Fresh.run_bind_congr (h _ (.fix Γ c body)) fun _ _ _ => rfl
  | list es =>
      rw [Expr.inferVia, Expr.infer]
      refine Fresh.run_bind_congr rfl fun whole c₁ hwhole => ?_
      obtain ⟨rfl, rfl⟩ := Fresh.run_var_eq_ok.1 hwhole
      refine Fresh.run_bind_congr rfl fun element c₂ helement => ?_
      obtain ⟨rfl, rfl⟩ := Fresh.run_var_eq_ok.1 helement
      refine Fresh.run_bind_congr (run_inferElementsVia_eq ?_) fun _ _ _ => rfl
      intro before e after C c₃ heq hbefore
      subst heq
      exact h _ (.element hbefore e after)

end InferCall

/-! ## The discipline on names -/

namespace InferCall

open LetPoly.Expr (Infers InfersAll)

/-- A call keeps the environment apart from what is made later. -/
theorem Makes.apart {call call' : InferCall} (h : call.Makes call')
    (hcall : call.env.Apart call.count) : call'.env.Apart call'.count := by
  cases h with
  | lam Γ c x body => exact Env.Apart.insertVar hcall x
  | function Γ c f a => exact hcall
  | argument hf a => exact Env.Apart.mono hcall hf.mentions.le
  | value Γ c x value body => exact hcall
  | scope hv hs x body => exact Env.Apart.bindSolved hcall hv.mentions hs x
  | test Γ c test onTrue onFalse => exact hcall
  | onTrue ht onTrue onFalse => exact Env.Apart.mono hcall ht.mentions.le
  | onFalse ht ha onFalse =>
      exact Env.Apart.mono hcall (le_trans ht.mentions.le ha.mentions.le)
  | fix Γ c body => exact hcall
  | @element Γ c c₁ before C hbefore e after =>
      have hlist := (hbefore.mentions fun _ _ => Infers.mentions).1
      have hle : c ≤ c₁ := by omega
      exact Env.Apart.mono hcall hle

/-- Every call of a run that starts apart is apart. -/
theorem During.apart {start call : InferCall} (h : start.During call)
    (hstart : start.env.Apart start.count) : call.env.Apart call.count := by
  induction h with
  | refl => exact hstart
  | tail _ hmakes ih => exact hmakes.apart ih

/-- What a call answers mentions free variables of its environment and variables that it made
only. -/
def NamesOwn (call : InferCall) : Prop :=
  ∀ r c', Infers call.env call.count call.expr r c' → ∀ a, r.Mentions a →
    a ∈ call.env.freeVars ∨ ∃ i, call.count < i ∧ i ≤ c' ∧ a = typeVarName i

/-- If a call is for a local definition, the solution of its value captures nothing in the
environment: a variable is free in a substituted scheme exactly when it occurs in the type put
in for a free variable. -/
def CapturesNothing (call : InferCall) : Prop :=
  ∀ x value body, call.expr = .letIn x value body →
    ∀ v c₁ s, Infers call.env call.count value v c₁ → Constraint.solve v.constraints = .ok s →
      ∀ y σ, call.env.get? y = some σ → ∀ b,
        b ∈ (σ.apply s).freeVars ↔ ∃ a ∈ σ.freeVars, b ∈ ((Ty.var a).apply s).freeVars

theorem capturesNothing_of_apart {call : InferCall} (h : call.env.Apart call.count) :
    call.CapturesNothing := by
  intro x value body _ v c₁ s hv hs y σ hy b
  have hcapture : σ.CaptureFree s := h.captureFree hv.mentions hs hy
  constructor
  · exact Scheme.exists_of_mem_freeVars_apply
  · intro hex
    obtain ⟨a, ha, hb⟩ := hex
    exact hcapture.mem_freeVars_apply ha hb

/-- Inference in an environment of closed schemes keeps the discipline on names, from whatever
count it starts and whether it succeeds or not: every call during the run names its own
variables only and captures nothing, and no call that it makes is left out. -/
theorem keeps_discipline {Γ : Env Empty} (hΓ : Γ.Closed) (c : Int) (e : Expr)
    {call : InferCall} (h : During ⟨Γ, c, e⟩ call) :
    call.NamesOwn ∧ call.CapturesNothing ∧ call.DecidedByCalls := by
  refine ⟨?_, capturesNothing_of_apart (h.apart (hΓ.apart c)), call.decidedByCalls⟩
  intro r c' hrun a ha
  exact hrun.mentions.reaches ha

/-- An environment with a scheme that quantifies a name which inference is about to make. -/
def clashing : Env Empty :=
  Bindings.insert ∅ "id" ⟨["t1"], .fn (.var "t1") (.var "t1")⟩

theorem closed_clashing : Env.Closed clashing :=
  Env.closed_single (by decide) "id"

/-- The value of a definition that is monomorphic in the type of a parameter. -/
def tagging : Expr :=
  .lam "y" (.app (.app (.prim .pair) (.var "x")) (.var "y"))

/-- What inference answers for that value. -/
def taggingTyped : Typed Empty where
  type := .fn (.var "t2") (.var "t6")
  constraints := [
    ⟨.fn (.var "t3") (.fn (.var "t4") (.pair (.var "t3") (.var "t4"))),
      .fn (.var "t1") (.var "t5")⟩,
    ⟨.var "t5", .fn (.var "t2") (.var "t6")⟩]

/-- The solution of what is answered for the value. -/
def taggingSolution : Subst Empty :=
  .ofList [("t6", .pair (.var "t1") (.var "t2")), ("t4", .var "t2"), ("t3", .var "t1"),
    ("t5", .fn (.var "t2") (.pair (.var "t1") (.var "t2")))]

/-- A definition whose value makes the parameter a function, behind the other definition. -/
def tagThenCall : Expr :=
  .lam "x" (.letIn "tag" tagging (.letIn "z" (.app (.var "x") (.int 0)) (.var "z")))

/-- The call for the inner one of two local definitions.  Its solution reaches into the scheme
of the outer one, which has a free and a quantified variable. -/
theorem keeps_discipline_tagThenCall :
    Env.Closed clashing ∧ ∃ call, During ⟨clashing, 0, tagThenCall⟩ call ∧
      call.NamesOwn ∧ call.CapturesNothing ∧ call.DecidedByCalls ∧
      call.expr = .letIn "z" (.app (.var "x") (.int 0)) (.var "z") ∧
      call.env.get? "tag" =
        some ⟨["t2"], .fn (.var "t2") (.pair (.var "t1") (.var "t2"))⟩ ∧
      ∃ v s, Infers call.env call.count (.app (.var "x") (.int 0)) v 7 ∧
        Constraint.solve v.constraints = .ok s ∧
        (Ty.var "t1").apply s = Ty.fn .int (.var "t7") := by
  have hbody := Makes.lam clashing 0 "x"
    (.letIn "tag" tagging (.letIn "z" (.app (.var "x") (.int 0)) (.var "z")))
  have hvalue : Infers (clashing.insert "x" (.mono (.var (typeVarName (0 + 1))))) (0 + 1) tagging
      taggingTyped 6 := rfl
  have hsolve : Constraint.solve taggingTyped.constraints = .ok taggingSolution := rfl
  have hscope := Makes.scope hvalue hsolve "tag"
    (.letIn "z" (.app (.var "x") (.int 0)) (.var "z"))
  have hduring : During ⟨clashing, 0, tagThenCall⟩ _ :=
    (Relation.ReflTransGen.single hbody).tail hscope
  obtain ⟨hnames, hcaptures, hdecided⟩ := keeps_discipline closed_clashing 0 tagThenCall hduring
  exact ⟨closed_clashing, _, hduring, hnames, hcaptures, hdecided, rfl, rfl,
    ⟨.var "t7", [⟨.var "t1", .fn .int (.var "t7")⟩]⟩, .ofList [("t1", .fn .int (.var "t7"))],
    rfl, rfl, rfl⟩

end InferCall

end LetPoly
