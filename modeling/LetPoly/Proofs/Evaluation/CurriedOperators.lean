import LetPoly.Proofs.Evaluation.Limits
import LetPoly.Proofs.Evaluation.PartialApplication
import LetPoly.Proofs.Evaluation.Termination

/-!
# Operators as functions

An operator that is applied to all its arguments is carried out directly.  This is a short cut:
operators may as well be written as functions that take their arguments one after the other.
Where one expression has a value so has the other, and the values are similar.

One run follows the other.  It cannot do so step by step, since the arguments of an operator are
all evaluated first, those that go beyond what the operator takes included, while a function is
applied to each argument at once.  So nothing is said about errors, of which the two runs may
meet different ones first, and the limit under which the second run ends is not known.

Main results:

- Theorem {lit}`Eval.evaluate_forward`: if an expression has a value, then so has a similar one.
- Theorem {lit}`Expr.eval_agrees_with_curried`: an expression and the expression in which
  operators are written as functions.
-/

namespace LetPoly

namespace Eval

/-- If the first evaluation gives a result under a limit, then the second gives a related result
under every large enough limit. -/
def forward (limit : Nat) : Comparison True where
  Relates m m' R := ∀ a, Returns (m limit) a → Stabilizes m' (R a)
  ofRuns h a := by
    rintro ⟨c, d, hrun⟩ c'
    obtain ⟨a', d', b, e, hm, hm', hab⟩ := h c c'
    cases hm.symm.trans hrun
    exact ⟨0, b, e, hab, fun _ _ => hm'⟩
  throw _ _ h := (not_returns_throw h).elim
  bind hm hf a h := by
    obtain ⟨b, hb, ha⟩ := h.of_bind
    exact termination.bind (hm b hb) fun w hw => hf b w hw a ha

/-- The expressions have values that are similar to given ones. -/
def AllStabilize (env : Values) (vs : List Value) (es : List Expr) : Prop :=
  List.Forall₂ (fun v e => Stabilizes (fun n => evaluate n env e) (v.Similar True)) vs es

theorem AllStabilize.evaluateAll {env : Values} {vs : List Value} {es : List Expr}
    (h : AllStabilize env vs es) :
    Stabilizes (fun n => Eval.evaluateAll (evaluate n) env es)
      (List.Forall₂ (Value.Similar True) vs) := by
  induction h with
  | nil => exact termination.pure .nil
  | cons hfirst _ ih =>
      refine termination.bind hfirst fun w hw => ?_
      exact termination.map ih fun ws hws => .cons hw hws

theorem stabilizes_app {env : Values} {f a : Expr} (hhead : ∀ p, f.head ≠ .prim p)
    {P Q S : Value → Prop} (hf : Stabilizes (fun n => evaluate n env f) P)
    (ha : Stabilizes (fun n => evaluate n env a) Q)
    (happly : ∀ g w, P g → Q w → Stabilizes (fun n => apply (evaluate n) g w) S) :
    Stabilizes (fun n => evaluate n env (f.app a)) S := by
  have hparts := termination.bind hf fun g hg =>
    termination.bind ha fun w hw => happly g w hg hw
  exact Stabilizes.delayed hparts 1 0 fun n => evaluate_app hhead n env a

section Step

variable {limit : Nat} (hevaluate : (forward limit).Evaluates)

include hevaluate

/-- Expressions that are similar to expressions with values have similar values. -/
theorem AllReturn.allStabilize {R : String → String → Prop} {env env' : Values}
    (henv : Values.Similar True R env env') {es es' : List Expr}
    (hes : List.Forall₂ (Expr.Similar True R) es es') {vs : List Value}
    (h : AllReturn limit env es vs) : AllStabilize env' vs es' := by
  induction hes generalizing vs with
  | nil =>
      cases h
      exact .nil
  | cons he _ ih =>
      cases h with
      | cons hfirst hrest => exact .cons (hevaluate henv he _ hfirst) (ih hrest)

theorem stabilizes_applyAll {f g v : Value} {vs ws : List Value} (hreaches : Reaches limit f vs v)
    (hfg : f.Similar True g) (hvws : List.Forall₂ (Value.Similar True) vs ws) :
    Stabilizes (fun n => applyAll (evaluate n) g ws) (v.Similar True) := by
  induction hreaches generalizing g ws with
  | nil =>
      cases hvws
      exact termination.pure hfg
  | cons hfirst _ ih =>
      cases hvws with
      | cons ha hrest =>
          refine termination.bind (Comparison.apply hevaluate hfg ha _ hfirst) fun g' hg' => ?_
          exact ih hg' hrest

/-- A function is applied to its arguments one after the other. -/
theorem stabilizes_apps {env : Values} {f : Expr} {args : List Expr} {g v : Value}
    {vs : List Value} (hhead : ∀ p, f.head ≠ .prim p)
    (hf : Stabilizes (fun n => evaluate n env f) (g.Similar True))
    (hargs : AllStabilize env vs args) (hreaches : Reaches limit g vs v) :
    Stabilizes (fun n => evaluate n env (f.apps args)) (v.Similar True) := by
  induction hreaches generalizing f args with
  | nil =>
      cases hargs
      exact hf
  | cons hfirst _ ih =>
      cases hargs with
      | cons ha hrest =>
          refine ih (f := f.app _) hhead (stabilizes_app hhead hf ha ?_) hrest
          exact fun g' w hg' hw => Comparison.apply hevaluate hg' hw _ hfirst

/-- A function that awaits arguments takes them one after the other, carries out the operator and
applies the result to the others. -/
theorem stabilizes_awaiting {env : Values} {f : Expr} {args : List Expr} {p : Primitive}
    {given vs : List Value} {r v : Value} (hhead : ∀ q, f.head ≠ .prim q)
    (hf : Stabilizes (fun n => evaluate n env f) fun g =>
      ∃ given', List.Forall₂ (Value.Similar True) given given' ∧ Awaits p given' g)
    (hargs : AllStabilize env vs args) (hawaits : given.length < p.arity)
    (hlength : p.arity ≤ given.length + vs.length)
    (hr : Returns (applyPrimitive (evaluate limit) p ((given ++ vs).take p.arity)) r)
    (hreaches : Reaches limit r ((given ++ vs).drop p.arity) v) :
    Stabilizes (fun n => evaluate n env (f.apps args)) (v.Similar True) := by
  induction hargs generalizing f given with
  | nil => exact absurd hawaits (Nat.not_lt.2 hlength)
  | @cons first a rest others ha hrest ih =>
      rw [List.append_cons] at hr hreaches
      have hcount : (given ++ [first]).length = given.length + 1 := List.length_append
      by_cases hlast : given.length + 1 = p.arity
      · rw [List.take_left' (hcount.trans hlast)] at hr
        rw [List.drop_left' (hcount.trans hlast)] at hreaches
        refine stabilizes_apps hevaluate (f := f.app a) hhead ?_ hrest hreaches
        refine stabilizes_app hhead hf ha ?_
        rintro g w ⟨given', hgiven, hg⟩ hw
        rcases hg.apply w with ⟨hmore, -⟩ | ⟨-, happly⟩
        · rw [← hgiven.length_eq] at hmore
          omega
        · have hall := List.rel_append hgiven (.cons hw .nil)
          exact Stabilizes.delayed
            (Comparison.applyPrimitive hevaluate (hcount.trans hlast) hall r hr) 2 1 happly
      · refine ih (f := f.app a) hhead (stabilizes_app hhead hf ha ?_) (by omega) ?_ hr hreaches
        · rintro g w ⟨given', hgiven, hg⟩ hw
          rcases hg.apply w with ⟨-, g', hg', happly⟩ | ⟨hlast', -⟩
          · have hall := List.rel_append hgiven (.cons hw .nil)
            exact Stabilizes.delayed (termination.pure ⟨_, hall, hg'⟩) 1 0 happly
          · rw [← hgiven.length_eq] at hlast'
            omega
        · rw [List.length_cons] at hlength
          omega

/-- However an operator is written, it does on similar arguments what it does where it is carried
out. -/
theorem CarriedOut.stabilizes {R : String → String → Prop} {env env' : Values}
    (henv : Values.Similar True R env env') {p : Primitive} {args : List Expr} {e : Expr}
    (hargs : List.Forall₂ (Expr.Similar True R) args e.arguments) {v : Value}
    (h : CarriedOut limit env p args v) (he : e.Operates True p) :
    Stabilizes (fun n => evaluate n env' e) (v.Similar True) := by
  obtain ⟨vs, r, hvs, hr, hrest⟩ := h
  have hall := hvs.allStabilize hevaluate henv hargs
  have harity : p.arity ≤ vs.length := by
    rw [hall.length_eq]
    exact he.arity_le
  have hdenotes := he.head
  generalize hhead : e.head = f at hdenotes
  cases hdenotes with
  | prim =>
      refine stabilizes_evaluate ?_
      simp only [evaluateStep, he.saturated?_eq hhead]
      refine termination.bind hall.evaluateAll fun ws hvws => ?_
      have htake : (vs.take p.arity).length = p.arity := List.length_take_of_le harity
      refine termination.bind
        (Comparison.applyPrimitive hevaluate htake (List.forall₂_take _ hvws) r hr) fun r' hr' => ?_
      exact stabilizes_applyAll hevaluate hrest hr' (List.forall₂_drop _ hvws)
  | @lams x rest _ hlength hnodup =>
      rw [← e.apps_spine, hhead]
      have hf : Stabilizes (fun n => evaluate n env' ((x :: rest).foldr .lam
          (Expr.saturation p (x :: rest)))) fun g =>
          ∃ given, List.Forall₂ (Value.Similar True) [] given ∧ Awaits p given g := by
        intro c
        obtain ⟨g, c', hg, hrun⟩ := Expr.exists_awaits hlength hnodup env' c
        refine ⟨1, g, c', ⟨[], .nil, hg⟩, fun n hn => ?_⟩
        obtain ⟨n, rfl⟩ := Nat.exists_eq_add_of_le' hn
        exact hrun n
      refine stabilizes_awaiting hevaluate (by simp [Expr.head]) hf hall ?_ ?_ hr hrest
      · rw [← hlength]
        exact Nat.succ_pos _
      · rw [List.length_nil, Nat.zero_add]
        exact harity

end Step

/-- If an expression has a value, then so has a similar one, and the values are similar. -/
theorem evaluate_forward (limit : Nat) : (forward limit).Evaluates := by
  induction limit with
  | zero => exact fun _ _ _ h => (not_returns_throw h).elim
  | succ limit ih =>
      intro R env env' e e' henv he v hv
      by_cases hoperator : ∃ p, e.Operates True p ∧ e'.Operates True p
      · obtain ⟨p, hp, hp'⟩ := hoperator
        exact (hp.carriedOut hv).stabilizes ih henv he.spine.2 hp'
      · -- an operator that is carried out directly on one side would be applied on both
        have hnone : saturated? e = none := by
          rw [Option.eq_none_iff_forall_ne_some]
          rintro ⟨p, args⟩ hsome
          exact hoperator ⟨p, .of_saturated? hsome, .of_similar hsome he⟩
        have hnone' : saturated? e' = none := by
          rw [Option.eq_none_iff_forall_ne_some]
          rintro ⟨p, args⟩ hsome
          have hsymm : Expr.Similar True (fun a b => R b a) e' e := he.symm fun _ _ hab => hab
          exact hoperator ⟨p, .of_similar hsome hsymm, .of_saturated? hsome⟩
        have hform := Comparison.evaluateForm ih henv he v
        refine stabilizes_evaluate ?_
        simp only [evaluate, evaluateStep, hnone] at hv
        simp only [evaluateStep, hnone']
        exact hform hv

end Eval

/-! ## Expressions with other writings of operators -/

/-- A similar expression has a similar value, unless it nests too deeply. -/
theorem Expr.Similar.exists_eval {e e' : Expr} (h : Expr.Similar True (· = ·) e e') {m n : Nat}
    {v : Value} (hv : e.eval m [] = .ok v) (hn : e'.eval n [] ≠ .error .tooDeep) :
    ∃ w, e'.eval n [] = .ok w ∧ v.Similar True w := by
  have hreturns : Eval.Returns (Eval.evaluate m [] e) v := by
    rw [Expr.eval, StateT.run'_eq] at hv
    cases hrun : (Eval.evaluate m [] e).run 0 with
    | error error =>
        rw [hrun] at hv
        cases hv
    | ok outcome =>
        rw [hrun] at hv
        cases hv
        exact ⟨0, outcome.2, hrun⟩
  obtain ⟨limit, w, c, hw, hrun⟩ := Eval.evaluate_forward m .nil h v hreturns 0
  refine ⟨w, ?_, hw⟩
  rw [(Expr.eval_withheld (le_max_right limit n) [] e').resolve_left hn, Expr.eval,
    StateT.run'_eq, hrun _ (le_max_left limit n)]
  rfl

/-- Operators may be written as functions.  Under limits that suffice for both, an expression has a
value if and only if the expression has one in which operators are written so, and then the two
values look the same and have the same text, if any. -/
theorem Expr.eval_agrees_with_curried {e e' : Expr} (h : Expr.Respells True e e')
    (hnames : ∀ x ∈ e.names, Unnumbered x) {m n : Nat} (hm : e.eval m [] ≠ .error .tooDeep)
    (hn : e'.eval n [] ≠ .error .tooDeep) :
    ((∃ v, e.eval m [] = .ok v) ↔ ∃ w, e'.eval n [] = .ok w) ∧
      ∀ v w, e.eval m [] = .ok v → e'.eval n [] = .ok w →
        v.outline = w.outline ∧ v.render = w.render := by
  have hsimilar : Expr.Similar True (· = ·) e e' := h.similar hnames fun _ _ => rfl
  refine ⟨⟨?_, ?_⟩, ?_⟩
  · rintro ⟨v, hv⟩
    obtain ⟨w, hw, -⟩ := hsimilar.exists_eval hv hn
    exact ⟨w, hw⟩
  · rintro ⟨w, hw⟩
    have hsymm : Expr.Similar True (· = ·) e' e := hsimilar.symm fun _ _ hab => hab.symm
    obtain ⟨v, hv, -⟩ := hsymm.exists_eval hw hm
    exact ⟨v, hv⟩
  · intro v w hv hw
    obtain ⟨w', hw', hvw⟩ := hsimilar.exists_eval hv hn
    cases hw.symm.trans hw'
    exact ⟨hvw.outline_eq, Value.render_eq_of_outline_eq hvw.outline_eq⟩

namespace Expr

mutual

/-- An expression in which all operators are written as functions of parameters with the given
names. -/
def curry (parameters : Primitive → List String) : Expr → Expr
  | var name => var name
  | app function argument => app (function.curry parameters) (argument.curry parameters)
  | lam parameter body => lam parameter (body.curry parameters)
  | letIn name value body => letIn name (value.curry parameters) (body.curry parameters)
  | int value => int value
  | bool value => bool value
  | ifThenElse test onTrue onFalse =>
      ifThenElse (test.curry parameters) (onTrue.curry parameters) (onFalse.curry parameters)
  | fix body => fix (body.curry parameters)
  | list elements => list (curryList parameters elements)
  | prim p => (parameters p).foldr lam (saturation p (parameters p))
  | hole => hole

/-- Expressions in which all operators are written as functions. -/
def curryList (parameters : Primitive → List String) : List Expr → List Expr
  | [] => []
  | e :: rest => e.curry parameters :: curryList parameters rest

end

theorem curryList_eq_map (parameters : Primitive → List String) (es : List Expr) :
    curryList parameters es = es.map (curry parameters) := by
  induction es with
  | nil => rfl
  | cons e rest ih => rw [curryList, ih, List.map_cons]

/-- The functions are other writings of the operators if they have distinct parameters, as many as
the operators take arguments. -/
theorem respells_curry {parameters : Primitive → List String}
    (h : ∀ p, (parameters p).length = p.arity ∧ (parameters p).Nodup) (e : Expr) :
    Respells True e (e.curry parameters) := by
  induction e with
  | var x => exact .var x
  | app f a ihf iha => exact .app ihf iha
  | lam x body ih => exact .lam x ih
  | letIn x value body ihv ihb => exact .letIn x ihv ihb
  | int n => exact .int n
  | bool b => exact .bool b
  | ifThenElse test onTrue onFalse iht iha ihb => exact .ifThenElse iht iha ihb
  | fix body ih => exact .fix ih
  | list es ih =>
      rw [curry, curryList_eq_map]
      refine .list (List.length_map _).symm fun i e e' he he' => ?_
      rw [List.getElem?_map, he] at he'
      cases he'
      exact ih e (List.mem_of_getElem? he)
  | prim p =>
      obtain ⟨hlength, hnodup⟩ := h p
      rw [curry]
      revert hlength hnodup
      cases parameters p with
      | nil => exact fun _ _ => .prim .prim
      | cons x rest => exact fun hlength hnodup => .prim (.lams trivial hlength hnodup)
  | hole => exact .hole

/-- Names for as many parameters as an operator takes arguments. -/
def shortNames (p : Primitive) : List String :=
  ["a", "b", "c"].take p.arity

/-- Operators with all their arguments, with fewer, with more, and as arguments of others. -/
def operatorsAtWork : Expr :=
  (Expr.prim .pair).apps [
    (Expr.prim .foldl).apps [.prim .add, .int 0,
      (Expr.prim .map).apps [.app (.prim .mul) (.int 2), .list [.int 1, .int 2]]],
    (Expr.prim .fst).apps [(Expr.prim .pair).apps [.prim .cons, .int 0], .int 7]]

theorem eval_agrees_with_curried_operatorsAtWork :
    Respells True operatorsAtWork (operatorsAtWork.curry shortNames) ∧
      (∀ x ∈ operatorsAtWork.names, Unnumbered x) ∧
      ∃ v w, operatorsAtWork.eval 20 [] = .ok v ∧
        (operatorsAtWork.curry shortNames).eval 20 [] = .ok w ∧
        v.outline = .pair (.int 6) (.closure "" .hole []) ∧ v.outline = w.outline ∧
        v.render = w.render := by
  have hparameters : ∀ p, (shortNames p).length = p.arity ∧ (shortNames p).Nodup := by
    intro p
    cases p <;> decide
  have hrespells := respells_curry hparameters operatorsAtWork
  have hnames : ∀ x ∈ operatorsAtWork.names, Unnumbered x := by decide
  have hruns : ∃ v w, operatorsAtWork.eval 20 [] = .ok v ∧
      (operatorsAtWork.curry shortNames).eval 20 [] = .ok w ∧
      v.outline = .pair (.int 6) (.closure "" .hole []) := ⟨_, _, rfl, rfl, rfl⟩
  obtain ⟨v, w, hv, hw, houtline⟩ := hruns
  refine ⟨hrespells, hnames, v, w, hv, hw, houtline, ?_⟩
  have hm : operatorsAtWork.eval 20 [] ≠ .error .tooDeep := by rw [hv]; simp
  have hn : (operatorsAtWork.curry shortNames).eval 20 [] ≠ .error .tooDeep := by rw [hw]; simp
  exact (eval_agrees_with_curried hrespells hnames hm hn).2 v w hv hw

end Expr

end LetPoly
