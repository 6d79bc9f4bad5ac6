import LetPoly.Proofs.Evaluation.Similarity

/-!
# Comparing two runs

Two facts about evaluation compare the runs of similar expressions: that they end alike, in
values or in errors, and that one has a value if the other has.  They differ in what they say
about two outcomes and not in how they go through the definition of evaluation.

So the walk is done once, for a comparison that says what it means that two evaluations give
related results.  An evaluation is seen as a family, one evaluation for each limit on nesting.
Only applications of operators to all their arguments are left out, since the two ways to write
an operator take different paths there.

Main results:

- Theorem {lit}`Comparison.applyPrimitive`: operators on similar arguments give similar values.
- Theorem {lit}`Comparison.evaluateForm`: similar expressions give similar values, saturated
  applications apart.
-/

namespace LetPoly

/-- A meaning for the statement that two families of evaluations give related results. -/
structure Comparison (curried : Prop) where
  /-- The evaluations give related results. -/
  Relates : ∀ {α β : Type}, (Nat → Eval α) → (Nat → Eval β) → (α → β → Prop) → Prop
  /-- What succeeds whatever the limit does so. -/
  ofRuns : ∀ {α β : Type} {m : Eval α} {m' : Eval β} {R : α → β → Prop},
    (∀ c c', ∃ a d b d', m.run c = .ok (a, d) ∧ m'.run c' = .ok (b, d') ∧ R a b) →
    Relates (fun _ => m) (fun _ => m') R
  /-- Evaluations may fail with similar errors. -/
  throw : ∀ {α β : Type} {e e' : EvalError} {R : α → β → Prop}, e.Similar curried e' →
    Relates (fun _ => throwThe EvalError e) (fun _ => throwThe EvalError e') R
  /-- Evaluations may be followed by others. -/
  bind : ∀ {α β γ δ : Type} {m : Nat → Eval α} {m' : Nat → Eval β} {f : α → Nat → Eval γ}
    {f' : β → Nat → Eval δ} {R : α → β → Prop} {S : γ → δ → Prop}, Relates m m' R →
    (∀ a b, R a b → Relates (f a) (f' b) S) →
    Relates (fun n => m n >>= fun a => f a n) (fun n => m' n >>= fun b => f' b n) S

/-- A function without free names is closed over nothing. -/
theorem Eval.restrict_eq_nil (env : Values) {names : OrderedSet String}
    (h : ∀ x, x ∉ names) : Eval.restrict env names = [] := by
  have hnil : names.toList = [] := List.eq_nil_iff_forall_not_mem.2 h
  rw [Eval.restrict, hnil]
  rfl

/-- However an operator is written, it becomes the function of the operator. -/
theorem Expr.Denotes.evaluateForm_eq {curried : Prop} {p : Primitive} {e : Expr}
    (h : e.Denotes curried p) (env : Values) :
    ∃ m, (∀ evaluate, Eval.evaluateForm evaluate env e = m) ∧
      ∀ c, ∃ v c', m.run c = .ok (v, c') ∧ Eval.Wrapped p v := by
  cases h with
  | prim => exact ⟨Eval.wrap p, fun _ => rfl, Eval.exists_run_wrap p⟩
  | @lams x rest _ hlength hnodup =>
      let body := rest.foldr .lam (Expr.saturation p (x :: rest))
      have hbody : body.hasHole = false := by rw [Expr.hasHole_lams, Expr.hasHole_saturation]
      have hfree : ∀ y, y ∉ body.freeVars.erase x := by
        intro y hy
        obtain ⟨hy, hyx⟩ := OrderedSet.mem_erase.1 hy
        exact hyx (Expr.eq_of_mem_freeVars_lams_saturation hy)
      refine ⟨Eval.close env x body, fun _ => rfl, fun c => ⟨.closure x body [], c, ?_, ?_⟩⟩
      · rw [Eval.close_eq_pure hbody, Eval.restrict_eq_nil env hfree]
        rfl
      · exact .closure hlength hnodup

namespace Comparison

variable {curried : Prop} (L : Comparison curried) {α β γ δ : Type}

/-- Related values are related runs. -/
theorem pure {a : α} {b : β} {R : α → β → Prop} (h : R a b) :
    L.Relates (fun _ => Pure.pure a) (fun _ => Pure.pure b) R :=
  L.ofRuns fun c c' => ⟨a, c, b, c', rfl, rfl, h⟩

/-- Related results may be worked on. -/
theorem map {m : Nat → Eval α} {m' : Nat → Eval β} {f : α → γ} {f' : β → δ}
    {R : α → β → Prop} {S : γ → δ → Prop} (h : L.Relates m m' R)
    (hf : ∀ a b, R a b → S (f a) (f' b)) :
    L.Relates (fun n => m n >>= fun a => Pure.pure (f a))
      (fun n => m' n >>= fun b => Pure.pure (f' b)) S :=
  L.bind h fun a b hab => L.pure (hf a b hab)

/-! ## Arguments of operators -/

section Arguments

variable (p : Primitive) {v w : Value} (h : v.Similar curried w)

include h

/-- Similar values are both integers, and the same ones, or both are not. -/
theorem expectInt :
    L.Relates (fun _ => Eval.expectInt p v) (fun _ => Eval.expectInt p w) Eq := by
  have hthrow := EvalError.Similar.wrongArgument p h
  cases h with
  | int n => exact L.pure rfl
  | _ => exact L.throw hthrow

/-- Similar values are both lists, with similar elements, or both are not. -/
theorem expectList :
    L.Relates (fun _ => Eval.expectList p v) (fun _ => Eval.expectList p w)
      (List.Forall₂ (Value.Similar curried)) := by
  have hthrow := EvalError.Similar.wrongArgument p h
  cases h with
  | list hlength hvs => exact L.pure (Value.similar_list_iff.1 (.list hlength hvs))
  | _ => exact L.throw hthrow

/-- Similar values are both pairs, with similar components, or both are not. -/
theorem expectPair :
    L.Relates (fun _ => Eval.expectPair p v) (fun _ => Eval.expectPair p w)
      fun both both' => both.1.Similar curried both'.1 ∧ both.2.Similar curried both'.2 := by
  have hthrow := EvalError.Similar.wrongArgument p h
  cases h with
  | pair ha hb => exact L.pure ⟨ha, hb⟩
  | _ => exact L.throw hthrow

end Arguments

/-! ## One level of evaluation -/

/-- Similar expressions give similar values in similar environments. -/
def Evaluates : Prop :=
  ∀ {R : String → String → Prop} {env env' : Values} {e e' : Expr},
    Values.Similar curried R env env' → Expr.Similar curried R e e' →
    L.Relates (fun n => Eval.evaluate n env e) (fun n => Eval.evaluate n env' e')
      (Value.Similar curried)

variable {L} (hevaluate : L.Evaluates) {f g : Value} (hfg : f.Similar curried g)

include hevaluate

include hfg in
/-- Similar functions give similar results for similar arguments. -/
theorem apply {v w : Value} (hvw : v.Similar curried w) :
    L.Relates (fun n => Eval.apply (Eval.evaluate n) f v)
      (fun n => Eval.apply (Eval.evaluate n) g w) (Value.Similar curried) := by
  have hthrow := EvalError.Similar.notFunction hfg
  cases hfg with
  | closure hbody hbound hunbound hvalues =>
      obtain ⟨R, hbody, hcaptured⟩ :=
        Value.similar_closure_iff.1 (.closure hbody hbound hunbound hvalues)
      exact hevaluate (hcaptured.cons hvw _ _) hbody
  | _ => exact L.throw hthrow

include hfg in
/-- So they do for arguments one after the other. -/
theorem applyAll {vs ws : List Value} (hvws : List.Forall₂ (Value.Similar curried) vs ws) :
    L.Relates (fun n => Eval.applyAll (Eval.evaluate n) f vs)
      (fun n => Eval.applyAll (Eval.evaluate n) g ws) (Value.Similar curried) := by
  induction hvws generalizing f g with
  | nil => exact L.pure hfg
  | cons hvw _ ih => exact L.bind (apply hevaluate hfg hvw) fun _ _ hresult => ih hresult

include hfg in
/-- So does mapping them over similar lists. -/
theorem mapList {vs ws : List Value} (hvws : List.Forall₂ (Value.Similar curried) vs ws) :
    L.Relates (fun n => Eval.mapList (Eval.evaluate n) f vs)
      (fun n => Eval.mapList (Eval.evaluate n) g ws) (List.Forall₂ (Value.Similar curried)) := by
  induction hvws with
  | nil => exact L.pure .nil
  | cons hvw _ ih =>
      refine L.bind (apply hevaluate hfg hvw) fun _ _ hfirst => ?_
      exact L.map ih fun _ _ hrest => .cons hfirst hrest

include hfg in
/-- So does folding them over similar lists, with similar values so far. -/
theorem foldList {vs ws : List Value} (hvws : List.Forall₂ (Value.Similar curried) vs ws)
    {acc acc' : Value} (hacc : acc.Similar curried acc') :
    L.Relates (fun n => Eval.foldList (Eval.evaluate n) f acc vs)
      (fun n => Eval.foldList (Eval.evaluate n) g acc' ws) (Value.Similar curried) := by
  induction hvws generalizing acc acc' with
  | nil => exact L.pure hacc
  | cons hvw _ ih =>
      refine L.bind (apply hevaluate hfg hacc) fun _ _ hpartially => ?_
      exact L.bind (apply hevaluate hpartially hvw) fun _ _ hnext => ih hnext

/-- Similar expressions give similar values, one for each. -/
theorem evaluateAll {R : String → String → Prop} {env env' : Values}
    (henv : Values.Similar curried R env env') {es es' : List Expr}
    (hes : List.Forall₂ (Expr.Similar curried R) es es') :
    L.Relates (fun n => Eval.evaluateAll (Eval.evaluate n) env es)
      (fun n => Eval.evaluateAll (Eval.evaluate n) env' es')
      fun vs ws => vs.length = es.length ∧ List.Forall₂ (Value.Similar curried) vs ws := by
  induction hes with
  | nil => exact L.pure ⟨rfl, .nil⟩
  | cons he _ ih =>
      refine L.bind (hevaluate henv he) fun _ _ hfirst => ?_
      exact L.map ih fun _ _ hrest => ⟨congrArg Nat.succ hrest.1, .cons hfirst hrest.2⟩

/-- An operator on similar arguments, as many as it takes, gives similar values. -/
theorem applyPrimitive {p : Primitive} {vs ws : List Value} (hlength : vs.length = p.arity)
    (hvws : List.Forall₂ (Value.Similar curried) vs ws) :
    L.Relates (fun n => Eval.applyPrimitive (Eval.evaluate n) p vs)
      (fun n => Eval.applyPrimitive (Eval.evaluate n) p ws) (Value.Similar curried) := by
  cases p with
  | nil =>
      obtain rfl := List.length_eq_zero_iff.1 hlength
      cases hvws
      exact L.pure (Value.similar_list_iff.2 .nil)
  | add | sub | mul =>
      obtain ⟨a, b, rfl⟩ := List.length_eq_two.1 hlength
      rcases hvws with _ | ⟨ha, _ | ⟨hb, _ | _⟩⟩
      refine L.bind (L.expectInt _ ha) fun m _ hm => L.bind (L.expectInt _ hb) fun n _ hn => ?_
      subst hm hn
      exact L.pure (.int _)
  | eql =>
      obtain ⟨a, b, rfl⟩ := List.length_eq_two.1 hlength
      rcases hvws with _ | ⟨ha, _ | ⟨hb, _ | _⟩⟩
      refine L.bind (L.expectInt _ ha) fun m _ hm => L.bind (L.expectInt _ hb) fun n _ hn => ?_
      subst hm hn
      exact L.pure (.bool _)
  | null =>
      obtain ⟨a, rfl⟩ := List.length_eq_one_iff.1 hlength
      rcases hvws with _ | ⟨ha, _ | _⟩
      refine L.map (L.expectList _ ha) fun us us' hus => ?_
      have hempty : us.isEmpty = us'.isEmpty := by cases hus <;> rfl
      rw [hempty]
      exact .bool _
  | map =>
      obtain ⟨f, a, rfl⟩ := List.length_eq_two.1 hlength
      rcases hvws with _ | ⟨hf, _ | ⟨ha, _ | _⟩⟩
      refine L.bind (L.expectList _ ha) fun us us' hus => ?_
      exact L.map (mapList hevaluate hf hus) fun _ _ h => Value.similar_list_iff.2 h
  | foldl =>
      obtain ⟨f, acc, a, rfl⟩ := List.length_eq_three.1 hlength
      rcases hvws with _ | ⟨hf, _ | ⟨hacc, _ | ⟨ha, _ | _⟩⟩⟩
      exact L.bind (L.expectList _ ha) fun us us' hus => foldList hevaluate hf hus hacc
  | pair =>
      obtain ⟨a, b, rfl⟩ := List.length_eq_two.1 hlength
      rcases hvws with _ | ⟨ha, _ | ⟨hb, _ | _⟩⟩
      exact L.pure (.pair ha hb)
  | fst =>
      obtain ⟨a, rfl⟩ := List.length_eq_one_iff.1 hlength
      rcases hvws with _ | ⟨ha, _ | _⟩
      exact L.map (L.expectPair _ ha) fun _ _ h => h.1
  | snd =>
      obtain ⟨a, rfl⟩ := List.length_eq_one_iff.1 hlength
      rcases hvws with _ | ⟨ha, _ | _⟩
      exact L.map (L.expectPair _ ha) fun _ _ h => h.2
  | cons =>
      obtain ⟨a, b, rfl⟩ := List.length_eq_two.1 hlength
      rcases hvws with _ | ⟨ha, _ | ⟨hb, _ | _⟩⟩
      exact L.map (L.expectList _ hb) fun _ _ h => Value.similar_list_iff.2 (.cons ha h)

omit hevaluate

/-- Similar bodies are closed over similar environments to similar functions. -/
theorem close {R : String → String → Prop} {env env' : Values}
    (henv : Values.Similar curried R env env') {x y : String} {body body' : Expr}
    (hbody : Expr.Similar curried (UnderBinders R x y) body body') :
    L.Relates (fun _ => Eval.close env x body) (fun _ => Eval.close env' y body')
      (Value.Similar curried) := by
  cases hhole : body.hasHole with
  | false =>
      rw [Eval.close_eq_pure hhole, Eval.close_eq_pure (hbody.hasHole_eq ▸ hhole)]
      exact L.pure (henv.closure hbody)
  | true =>
      rw [Eval.close, Eval.close, Eval.usedNames, Eval.usedNames, ← hbody.hasHole_eq, hhole]
      exact L.throw .holeInBody

include hevaluate

/-- Similar expressions give similar values, if neither is the application of an operator to all
its arguments. -/
theorem evaluateForm {R : String → String → Prop} {env env' : Values}
    (henv : Values.Similar curried R env env') {e e' : Expr}
    (he : Expr.Similar curried R e e') :
    L.Relates (fun n => Eval.evaluateForm (Eval.evaluate n) env e)
      (fun n => Eval.evaluateForm (Eval.evaluate n) env' e') (Value.Similar curried) := by
  cases he with
  | int n => exact L.pure (.int n)
  | bool b => exact L.pure (.bool b)
  | hole => exact L.throw .hole
  | @var _ x y hxy =>
      have hfound := henv x y hxy
      simp only [Eval.evaluateForm]
      generalize env.lookup x = found at hfound ⊢
      generalize env'.lookup y = found' at hfound ⊢
      cases hfound with
      | some hvw => exact L.pure hvw
      | none hsame => exact L.throw (hsame ▸ .unbound _)
  | lam hbody => exact close henv hbody
  | app hf ha =>
      refine L.bind (hevaluate henv hf) fun _ _ hfunction => ?_
      exact L.bind (hevaluate henv ha) fun _ _ hargument => apply hevaluate hfunction hargument
  | letIn hvalue hbody =>
      refine L.bind (hevaluate henv hvalue) fun _ _ hvw => ?_
      exact hevaluate (henv.cons hvw _ _) hbody
  | ifThenElse htest htrue hfalse =>
      refine L.bind (hevaluate henv htest) fun v w hvw => ?_
      have hthrow := EvalError.Similar.testNotBool hvw
      cases hvw with
      | bool b =>
          cases b with
          | true => exact hevaluate henv htrue
          | false => exact hevaluate henv hfalse
      | _ => exact L.throw hthrow
  | list hlength hes =>
      refine L.map (evaluateAll hevaluate henv (forall₂_iff_getElem?.2 ⟨hlength, hes⟩)) ?_
      exact fun _ _ h => Value.similar_list_iff.2 h.2
  | @fix _ body body' hbody =>
      have hnames := hbody.mono fun a b _ _ hab => hab.1
      refine L.bind (hevaluate henv hnames) fun _ _ hfunction => ?_
      have hparameter : L.Relates (fun _ => Eval.freshParameter) (fun _ => Eval.freshParameter)
          fun x y => ∃ i j, x = parameterName i ∧ y = parameterName j :=
        L.ofRuns fun c c' => ⟨_, _, _, _, rfl, rfl, c + 1, c' + 1, rfl, rfl⟩
      refine L.bind hparameter fun x y hxy => ?_
      obtain ⟨i, j, rfl, rfl⟩ := hxy
      -- the new parameters are not used under the fixed points
      have hunrolled : Expr.Similar curried (UnderBinders R (parameterName i) (parameterName j))
          (.app (.fix body) (.var (parameterName i)))
          (.app (.fix body') (.var (parameterName j))) := by
        refine .app (.fix (hbody.mono fun a b _ _ h => ⟨Or.inr ⟨?_, ?_, h.1⟩, h.2⟩))
          (.var (Or.inl ⟨rfl, rfl⟩))
        · exact h.2.1.ne_parameterName i
        · exact h.2.2.ne_parameterName j
      exact L.bind (close henv hunrolled) fun _ _ hnext => apply hevaluate hfunction hnext
  | operator he he' =>
      obtain ⟨m, hm, hrun⟩ := he.evaluateForm_eq env
      obtain ⟨m', hm', hrun'⟩ := he'.evaluateForm_eq env'
      simp only [hm, hm']
      refine L.ofRuns fun c c' => ?_
      obtain ⟨v, d, hv, hwrapped⟩ := hrun c
      obtain ⟨w, d', hw, hwrapped'⟩ := hrun' c'
      exact ⟨v, d, w, d', hv, hw, Value.similar_of_wrapped hwrapped hwrapped'⟩

end Comparison

end LetPoly
