import LetPoly.Proofs.Evaluation.Step

/-!
# Invariants of evaluation

An invariant says which values evaluation may give, which environments suit an expression, and
which errors may end an evaluation.  What has to be shown of it is said by one condition for
each form of expression, about the parts of the form alone.  That evaluation keeps it is then
shown here once, for typed and untyped expressions alike.

Main results:

- Theorem {lit}`EvalInvariant.applyPrimitive`: operators on as many arguments as they take.
- Theorem {lit}`EvalInvariant.evaluateStep`: one level of evaluation.
- Theorem {lit}`EvalInvariant.evaluate`: evaluation under any limit.
-/

namespace LetPoly

/-! ## Environments -/

namespace Values

/-- Every value of an environment has a property. -/
def All (P : Value → Prop) (env : Values) : Prop :=
  ∀ x v, env.lookup x = some v → P v

variable {P : Value → Prop}

/-- A property of all values is kept when a value with it is bound. -/
theorem All.cons {env : Values} (h : env.All P) {v : Value} (hv : P v) (x : String) :
    All P ((x, v) :: env) := by
  intro y w hy
  by_cases hyx : y = x
  · subst hyx
    rw [List.lookup_cons_self] at hy
    cases hy
    exact hv
  · have hbeq : (y == x) = false := by simp [hyx]
    rw [List.lookup_cons, hbeq] at hy
    exact h y w hy

/-- Fewer names have it as well. -/
theorem All.restrict {env : Values} (h : env.All P) (names : OrderedSet String) :
    All P (Eval.restrict env names) := by
  intro x v hx
  obtain ⟨before, after, heq, -⟩ := List.lookup_eq_some_iff.1 hx
  have hmem : (x, v) ∈ Eval.restrict env names := by simp [heq]
  obtain ⟨y, -, hy⟩ := List.mem_filterMap.1 hmem
  obtain ⟨w, hw, hpair⟩ := Option.map_eq_some_iff.1 hy
  cases hpair
  exact h x v hw

/-- The same for the values of definitions. -/
theorem All.insert {values : Bindings Value} (h : All P values.entries) {v : Value} (hv : P v)
    (x : String) : All P (values.insert x v).entries := by
  intro y w hy
  have hget : (values.insert x v).get? y = some w := hy
  rw [Bindings.get?_insert] at hget
  split_ifs at hget
  · cases hget
    exact hv
  · exact h y w hget

end Values

/-! ## Invariants -/

/-- A property that evaluation keeps: of its values, of the environments in which expressions
are evaluated, and of the errors that end it. -/
structure EvalInvariant where
  /-- The values that evaluation may give. -/
  Holds : Value → Prop
  /-- The environments that suit an expression. -/
  Fits : Values → Expr → Prop
  /-- The errors that may end an evaluation. -/
  Allows : EvalError → Prop
  int : ∀ n, Holds (.int n)
  bool : ∀ b, Holds (.bool b)
  list_iff : ∀ {vs}, Holds (.list vs) ↔ ∀ v ∈ vs, Holds v
  pair_iff : ∀ {a b}, Holds (.pair a b) ↔ Holds a ∧ Holds b
  wrapped : ∀ {p v}, Eval.Wrapped p v → Holds v
  /-- A function is applied in an environment that suits its body. -/
  apply : ∀ {x body captured a}, Holds (.closure x body captured) → Holds a →
    Fits ((x, a) :: captured) body
  notFunction : ∀ v, Allows (.notFunction v)
  testNotBool : ∀ v, Allows (.testNotBool v)
  wrongArgument : ∀ p v, Allows (.wrongArgument p v)
  tooDeep : Allows .tooDeep
  var : ∀ {env x v}, Fits env (.var x) → env.lookup x = some v → Holds v
  unbound : ∀ {env x}, Fits env (.var x) → env.lookup x = none → Allows (.unbound x)
  close : ∀ {env x body}, Fits env (.lam x body) → body.hasHole = false →
    Holds (.closure x body (Eval.restrict env (body.freeVars.erase x)))
  holeInBody : ∀ {env x body}, Fits env (.lam x body) → body.hasHole = true → Allows .holeInBody
  app : ∀ {env f a}, Fits env (.app f a) → Fits env f ∧ Fits env a
  letIn : ∀ {env x value body}, Fits env (.letIn x value body) →
    Fits env value ∧ ∀ v, Holds v → Fits ((x, v) :: env) body
  ifThenElse : ∀ {env test onTrue onFalse}, Fits env (.ifThenElse test onTrue onFalse) →
    Fits env test ∧ Fits env onTrue ∧ Fits env onFalse
  list : ∀ {env es}, Fits env (.list es) → ∀ e ∈ es, Fits env e
  fix : ∀ {env body}, Fits env (.fix body) →
    Fits env body ∧ ∀ x, Fits env (.lam x (.app (.fix body) (.var x)))
  hole : ∀ {env}, Fits env .hole → Allows .hole

namespace EvalInvariant

variable (I : EvalInvariant) {α β : Type} {P : α → Prop} {Q : β → Prop}

/-- An evaluation gives results with a property or fails in an allowed way, whatever the
counter. -/
def Gives (m : Eval α) (P : α → Prop) : Prop :=
  ∀ c, Eval.Regular I.Allows (fun outcome => P outcome.1) (m.run c)

namespace Gives

variable {I}

/-- A value with the property is given. -/
theorem pure {a : α} (h : P a) : I.Gives (Pure.pure a) P :=
  fun _ => h

/-- An allowed error ends the evaluation. -/
theorem throw {error : EvalError} (h : I.Allows error) : I.Gives (throwThe _ error) P :=
  fun _ => h

/-- Evaluations in sequence: what the first gives is all that the second may use. -/
theorem bind {m : Eval α} {f : α → Eval β} (hm : I.Gives m P)
    (hf : ∀ a, P a → I.Gives (f a) Q) : I.Gives (m >>= f) Q := by
  intro c
  rw [StateT.run_bind]
  exact (hm c).bind fun outcome houtcome => hf outcome.1 houtcome outcome.2

/-- An evaluation that never fails gives what its runs give. -/
theorem ofRun {m : Eval α} (h : ∀ c, ∃ a c', m.run c = .ok (a, c') ∧ P a) : I.Gives m P := by
  intro c
  obtain ⟨a, c', hrun, ha⟩ := h c
  rw [hrun]
  exact ha

end Gives

/-! ## Arguments of operators -/

/-- An operator that takes an integer gets one or ends with an allowed error. -/
theorem expectInt (p : Primitive) (v : Value) :
    I.Gives (Eval.expectInt p v) fun _ => True := by
  cases v with
  | int n => exact .pure trivial
  | _ => exact .throw (I.wrongArgument p _)

/-- The elements of a list have the property if the list does. -/
theorem expectList (p : Primitive) {v : Value} (hv : I.Holds v) :
    I.Gives (Eval.expectList p v) fun vs => ∀ w ∈ vs, I.Holds w := by
  cases v with
  | list vs => exact .pure (I.list_iff.1 hv)
  | _ => exact .throw (I.wrongArgument p _)

/-- The components of a pair have the property if the pair does. -/
theorem expectPair (p : Primitive) {v : Value} (hv : I.Holds v) :
    I.Gives (Eval.expectPair p v) fun both => I.Holds both.1 ∧ I.Holds both.2 := by
  cases v with
  | pair a b => exact .pure (I.pair_iff.1 hv)
  | _ => exact .throw (I.wrongArgument p _)

/-! ## One level of evaluation -/

section Step

variable {I} {evaluate : Values → Expr → Eval Value}
  (hevaluate : ∀ {env e}, I.Fits env e → I.Gives (evaluate env e) I.Holds)

include hevaluate

/-- Applying a function keeps the invariant. -/
theorem applyFunction {f a : Value} (hf : I.Holds f) (ha : I.Holds a) :
    I.Gives (Eval.apply evaluate f a) I.Holds := by
  cases f with
  | closure x body captured => exact hevaluate (I.apply hf ha)
  | _ => exact .throw (I.notFunction _)

/-- Applying it to argument after argument does. -/
theorem applyAll {f : Value} (hf : I.Holds f) {vs : List Value} (hvs : ∀ v ∈ vs, I.Holds v) :
    I.Gives (Eval.applyAll evaluate f vs) I.Holds := by
  induction vs generalizing f with
  | nil => exact .pure hf
  | cons v vs ih =>
      rw [List.forall_mem_cons] at hvs
      exact (applyFunction hevaluate hf hvs.1).bind fun g hg => ih hg hvs.2

/-- Expressions that are evaluated one after the other have values with the property. -/
theorem evaluateAll {env : Values} {es : List Expr} (hes : ∀ e ∈ es, I.Fits env e) :
    I.Gives (Eval.evaluateAll evaluate env es) fun vs =>
      vs.length = es.length ∧ ∀ v ∈ vs, I.Holds v := by
  induction es with
  | nil => exact .pure ⟨rfl, by simp⟩
  | cons e es ih =>
      rw [List.forall_mem_cons] at hes
      refine (hevaluate hes.1).bind fun v hv => ?_
      refine (ih hes.2).bind fun vs hvs => .pure ⟨?_, ?_⟩
      · rw [List.length_cons, List.length_cons, hvs.1]
      · exact List.forall_mem_cons.2 ⟨hv, hvs.2⟩

/-- Mapping a function over a list keeps the invariant. -/
theorem mapList {f : Value} (hf : I.Holds f) {vs : List Value} (hvs : ∀ v ∈ vs, I.Holds v) :
    I.Gives (Eval.mapList evaluate f vs) fun ws => ∀ w ∈ ws, I.Holds w := by
  induction vs with
  | nil => exact .pure (by simp)
  | cons v vs ih =>
      rw [List.forall_mem_cons] at hvs
      refine (applyFunction hevaluate hf hvs.1).bind fun w hw => ?_
      exact (ih hvs.2).bind fun ws hws => .pure (List.forall_mem_cons.2 ⟨hw, hws⟩)

/-- Folding a function over a list keeps the invariant, with the value so far as part of it. -/
theorem foldList {f acc : Value} (hf : I.Holds f) (hacc : I.Holds acc) {vs : List Value}
    (hvs : ∀ v ∈ vs, I.Holds v) : I.Gives (Eval.foldList evaluate f acc vs) I.Holds := by
  induction vs generalizing acc with
  | nil => exact .pure hacc
  | cons v vs ih =>
      rw [List.forall_mem_cons] at hvs
      refine (applyFunction hevaluate hf hacc).bind fun g hg => ?_
      exact (applyFunction hevaluate hg hvs.1).bind fun next hnext => ih hnext hvs.2

/-- Operators on as many arguments as they take. -/
theorem applyPrimitive {p : Primitive} {vs : List Value} (hlength : vs.length = p.arity)
    (hvs : ∀ v ∈ vs, I.Holds v) : I.Gives (Eval.applyPrimitive evaluate p vs) I.Holds := by
  cases p with
  | nil =>
      obtain rfl := List.length_eq_zero_iff.1 hlength
      exact .pure (I.list_iff.2 (by simp))
  | add | sub | mul =>
      obtain ⟨a, b, rfl⟩ := List.length_eq_two.1 hlength
      exact (I.expectInt _ a).bind fun m _ => (I.expectInt _ b).bind fun n _ =>
        .pure (I.int _)
  | eql =>
      obtain ⟨a, b, rfl⟩ := List.length_eq_two.1 hlength
      exact (I.expectInt _ a).bind fun m _ => (I.expectInt _ b).bind fun n _ =>
        .pure (I.bool _)
  | null =>
      obtain ⟨a, rfl⟩ := List.length_eq_one_iff.1 hlength
      exact (I.expectList _ (hvs a (by simp))).bind fun ws _ => .pure (I.bool _)
  | map =>
      obtain ⟨f, a, rfl⟩ := List.length_eq_two.1 hlength
      refine (I.expectList _ (hvs a (by simp))).bind fun ws hws => ?_
      exact (mapList hevaluate (hvs f (by simp)) hws).bind fun us hus =>
        .pure (I.list_iff.2 hus)
  | foldl =>
      obtain ⟨f, acc, a, rfl⟩ := List.length_eq_three.1 hlength
      refine (I.expectList _ (hvs a (by simp))).bind fun ws hws => ?_
      exact foldList hevaluate (hvs f (by simp)) (hvs acc (by simp)) hws
  | pair =>
      obtain ⟨a, b, rfl⟩ := List.length_eq_two.1 hlength
      exact .pure (I.pair_iff.2 ⟨hvs a (by simp), hvs b (by simp)⟩)
  | fst =>
      obtain ⟨a, rfl⟩ := List.length_eq_one_iff.1 hlength
      exact (I.expectPair _ (hvs a (by simp))).bind fun both hboth => .pure hboth.1
  | snd =>
      obtain ⟨a, rfl⟩ := List.length_eq_one_iff.1 hlength
      exact (I.expectPair _ (hvs a (by simp))).bind fun both hboth => .pure hboth.2
  | cons =>
      obtain ⟨a, b, rfl⟩ := List.length_eq_two.1 hlength
      exact (I.expectList _ (hvs b (by simp))).bind fun ws hws =>
        .pure (I.list_iff.2 (List.forall_mem_cons.2 ⟨hvs a (by simp), hws⟩))

omit hevaluate

/-- A function is closed over an environment that suits it. -/
theorem closeFunction {env : Values} {x : String} {body : Expr} (h : I.Fits env (.lam x body)) :
    I.Gives (Eval.close env x body) I.Holds := by
  cases hbody : body.hasHole with
  | false =>
      rw [Eval.close_eq_pure hbody]
      exact .pure (I.close h hbody)
  | true =>
      intro c
      rw [Eval.close, Eval.usedNames, hbody]
      exact I.holeInBody h hbody

/-- What suits an application suits its function and its arguments. -/
theorem fits_arguments {env : Values} {f : Expr} {args : List Expr}
    (h : I.Fits env (f.apps args)) : I.Fits env f ∧ ∀ a ∈ args, I.Fits env a := by
  induction args generalizing f with
  | nil => exact ⟨h, by simp⟩
  | cons a args ih =>
      obtain ⟨happ, hargs⟩ := ih (f := f.app a) h
      obtain ⟨hf, ha⟩ := I.app happ
      exact ⟨hf, List.forall_mem_cons.2 ⟨ha, hargs⟩⟩

include hevaluate

/-- One level of evaluation keeps the invariant: one case for each form, with the level below as
hypothesis. -/
theorem evaluateForm {env : Values} {e : Expr} (h : I.Fits env e) :
    I.Gives (Eval.evaluateForm evaluate env e) I.Holds := by
  cases e with
  | int n => exact .pure (I.int n)
  | bool b => exact .pure (I.bool b)
  | var x =>
      rw [Eval.evaluateForm]
      cases hx : env.lookup x with
      | none => exact .throw (I.unbound h hx)
      | some v => exact .pure (I.var h hx)
  | prim p =>
      refine .ofRun fun c => ?_
      obtain ⟨v, c', hrun, hv⟩ := Eval.exists_run_wrap p c
      exact ⟨v, c', hrun, I.wrapped hv⟩
  | lam x body => exact closeFunction h
  | hole => exact .throw (I.hole h)
  | app f a =>
      obtain ⟨hf, ha⟩ := I.app h
      refine (hevaluate hf).bind fun g hg => ?_
      exact (hevaluate ha).bind fun v hv => applyFunction hevaluate hg hv
  | letIn x value body =>
      obtain ⟨hvalue, hbody⟩ := I.letIn h
      exact (hevaluate hvalue).bind fun v hv => hevaluate (hbody v hv)
  | ifThenElse test onTrue onFalse =>
      obtain ⟨htest, htrue, hfalse⟩ := I.ifThenElse h
      refine (hevaluate htest).bind fun v _ => ?_
      cases v with
      | bool b =>
          cases b with
          | true => exact hevaluate htrue
          | false => exact hevaluate hfalse
      | _ => exact .throw (I.testNotBool _)
  | list es =>
      exact (evaluateAll hevaluate (I.list h)).bind fun vs hvs => .pure (I.list_iff.2 hvs.2)
  | fix body =>
      obtain ⟨hbody, hunrolled⟩ := I.fix h
      refine (hevaluate hbody).bind fun f hf => ?_
      have hparameter : I.Gives Eval.freshParameter fun _ => True :=
        .ofRun fun c => ⟨_, _, rfl, trivial⟩
      refine hparameter.bind fun x _ => ?_
      exact (closeFunction (hunrolled x)).bind fun g hg => applyFunction hevaluate hf hg

/-- One level of evaluation keeps an invariant. -/
theorem evaluateStep {env : Values} {e : Expr} (h : I.Fits env e) :
    I.Gives (Eval.evaluateStep evaluate env e) I.Holds := by
  rw [Eval.evaluateStep]
  cases hsaturated : Eval.saturated? e with
  | none => exact evaluateForm hevaluate h
  | some found =>
      obtain ⟨p, args⟩ := found
      obtain ⟨rfl, harity, -⟩ := Eval.of_saturated? hsaturated
      refine (evaluateAll hevaluate (fits_arguments h).2).bind fun vs hvs => ?_
      have htake : (vs.take p.arity).length = p.arity := by
        rw [List.length_take, hvs.1, Nat.min_eq_left harity]
      refine (applyPrimitive hevaluate htake fun v hv =>
        hvs.2 v (List.mem_of_mem_take hv)).bind fun f hf => ?_
      exact applyAll hevaluate hf fun v hv => hvs.2 v (List.mem_of_mem_drop hv)

end Step

/-- Evaluation keeps an invariant. -/
theorem evaluate (limit : Nat) {env : Values} {e : Expr} (h : I.Fits env e) :
    I.Gives (Eval.evaluate limit env e) I.Holds := by
  induction limit generalizing env e with
  | zero => exact .throw I.tooDeep
  | succ limit ih => exact evaluateStep (fun h => ih h) h

/-- Evaluation gives values with the property or ends with an allowed error. -/
theorem eval (limit : Nat) {env : Values} {e : Expr} (h : I.Fits env e) :
    Eval.Regular I.Allows I.Holds (e.eval limit env) :=
  (I.evaluate limit h 0).bind fun _ houtcome => houtcome

end EvalInvariant

end LetPoly
