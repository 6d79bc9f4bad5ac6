import LetPoly.Proofs.Evaluation.Comparison
import LetPoly.Proofs.Evaluation.FreeVariables

/-!
# Operators that are given arguments one by one

An operator that is written as a function takes its arguments one after the other, and between
them it is a closure that holds those which it was given.  With the last one it is carried out.
So if its application to all its arguments has a value, then the arguments have values and the
operator can be carried out on them: what an operator that is written as itself does at once.

The two orders of evaluation give out parameter names at different times, so nothing is said
here about the numbers from which evaluations start.

Main results:

- Theorem {lit}`Eval.Awaits.apply`: what a function that awaits arguments does with the next
  one.
- Theorem {lit}`Expr.Operates.carriedOut`: however an operator is written, its application to all
  its arguments carries it out.
-/

namespace LetPoly

namespace Eval

/-! ## Results of evaluations -/

/-- An evaluation gives a result, from some number on. -/
def Returns {α : Type} (m : Eval α) (a : α) : Prop :=
  ∃ c c', m.run c = .ok (a, c')

namespace Returns

variable {α β : Type} {m m' : Eval α} {a b : α}

/-- A sequence that returns returns from its parts. -/
theorem of_bind {f : α → Eval β} {b : β} (h : Returns (m >>= f) b) :
    ∃ a, Returns m a ∧ Returns (f a) b := by
  obtain ⟨c, c', hrun⟩ := h
  rw [StateT.run_bind] at hrun
  cases hm : m.run c with
  | error error =>
      rw [hm] at hrun
      cases hrun
  | ok outcome =>
      rw [hm] at hrun
      exact ⟨outcome.1, ⟨c, outcome.2, hm⟩, outcome.2, c', hrun⟩

/-- A value returns itself. -/
theorem of_pure (h : Returns (pure b) a) : a = b := by
  obtain ⟨c, c', hrun⟩ := h
  cases hrun
  rfl

/-- What returns under a limit returns under a larger one. -/
theorem of_approximates (h : Returns m a) (hm : Approximates m m') : Returns m' a := by
  obtain ⟨c, c', hrun⟩ := h
  rcases hm c with hdeep | hsame
  · cases hdeep.symm.trans hrun
  · exact ⟨c, c', hsame.symm.trans hrun⟩

end Returns

/-- An error does not return. -/
theorem not_returns_throw {α : Type} {error : EvalError} {a : α} :
    ¬Returns (throw error : Eval α) a := by
  rintro ⟨_, _, ⟨⟩⟩

/-- A function gives a result when it is applied to arguments one after the other. -/
inductive Reaches (n : Nat) : Value → List Value → Value → Prop where
  | nil (f : Value) : Reaches n f [] f
  | cons {f a g v : Value} {rest : List Value} (hfirst : Returns (apply (evaluate n) f a) g)
      (hrest : Reaches n g rest v) : Reaches n f (a :: rest) v

/-- Arguments are taken one after the other. -/
theorem Reaches.of_applyAll {n : Nat} {f v : Value} {vs : List Value}
    (h : Returns (applyAll (evaluate n) f vs) v) : Reaches n f vs v := by
  induction vs generalizing f with
  | nil =>
      rw [h.of_pure]
      exact .nil f
  | cons a rest ih =>
      obtain ⟨g, hfirst, hrest⟩ := h.of_bind
      exact .cons hfirst (ih hrest)

/-- Expressions have values, one each. -/
def AllReturn (n : Nat) (env : Values) (es : List Expr) (vs : List Value) : Prop :=
  List.Forall₂ (fun e v => Returns (evaluate n env e) v) es vs

/-- Expressions that return together return one by one. -/
theorem AllReturn.of_evaluateAll {n : Nat} {env : Values} {es : List Expr} {vs : List Value}
    (h : Returns (evaluateAll (evaluate n) env es) vs) : AllReturn n env es vs := by
  induction es generalizing vs with
  | nil =>
      rw [h.of_pure]
      exact .nil
  | cons e rest ih =>
      obtain ⟨v, hfirst, h⟩ := h.of_bind
      obtain ⟨others, hrest, h⟩ := h.of_bind
      rw [h.of_pure]
      exact .cons hfirst (ih hrest)

/-! ## Applications -/

/-- Only applications of operators are carried out directly. -/
theorem saturated?_eq_none {e : Expr} (hhead : ∀ p, e.head ≠ .prim p) : saturated? e = none := by
  rw [Option.eq_none_iff_forall_ne_some]
  rintro ⟨p, args⟩ hsome
  exact hhead p (saturated?_eq_some_iff.1 hsome).1

/-- An application without an operator at its head evaluates the function first, and the argument
then. -/
theorem evaluate_app {f : Expr} (hhead : ∀ p, f.head ≠ .prim p) (n : Nat) (env : Values)
    (a : Expr) :
    evaluate (n + 1) env (f.app a) = (do
      let g ← evaluate n env f
      let w ← evaluate n env a
      apply (evaluate n) g w) := by
  rw [evaluate, evaluateStep, saturated?_eq_none (e := f.app a) hhead]
  rfl

/-- If an application has a value, then so have its parts, under a limit that is smaller. -/
theorem exists_of_app {f a : Expr} (hhead : ∀ p, f.head ≠ .prim p) {n : Nat} {env : Values}
    {v : Value} (h : Returns (evaluate (n + 1) env (f.app a)) v) :
    ∃ g w, Returns (evaluate n env f) g ∧ Returns (evaluate n env a) w ∧
      Returns (apply (evaluate n) g w) v := by
  rw [evaluate_app hhead] at h
  obtain ⟨g, hg, h⟩ := h.of_bind
  obtain ⟨w, hw, h⟩ := h.of_bind
  exact ⟨g, w, hg, hw, h⟩

/-- A larger limit changes nothing that returns. -/
theorem evaluate_approximates_succ (n : Nat) (env : Values) (e : Expr) :
    Approximates (evaluate n env e) (evaluate (n + 1) env e) :=
  evaluate_approximates (Nat.le_succ n) env env e fun _ _ => rfl

theorem apply_approximates_succ (n : Nat) (f a : Value) :
    Approximates (apply (evaluate n) f a) (apply (evaluate (n + 1)) f a) :=
  apply_approximates (evaluate_approximates (Nat.le_succ n)) f a

/-- The same for an application to several arguments. -/
theorem exists_of_apps {f a : Expr} {rest : List Expr} (hhead : ∀ p, f.head ≠ .prim p) {n : Nat}
    {env : Values} {v : Value} (h : Returns (evaluate (n + 1) env (f.apps (a :: rest))) v) :
    ∃ g ws, Returns (evaluate n env f) g ∧ AllReturn n env (a :: rest) ws ∧
      Reaches n g ws v := by
  induction rest generalizing f a with
  | nil =>
      obtain ⟨g, w, hg, hw, happly⟩ := exists_of_app hhead h
      exact ⟨g, [w], hg, .cons hw .nil, .cons happly (.nil v)⟩
  | cons b rest ih =>
      obtain ⟨g', ws, hg', hws, hreaches⟩ := ih (f := f.app a) hhead h
      cases n with
      | zero => exact (not_returns_throw hg').elim
      | succ n =>
          obtain ⟨g, w, hg, hw, happly⟩ := exists_of_app hhead hg'
          refine ⟨g, w :: ws, hg.of_approximates (evaluate_approximates_succ n env f), ?_, ?_⟩
          · exact .cons (hw.of_approximates (evaluate_approximates_succ n env a)) hws
          · exact .cons (happly.of_approximates (apply_approximates_succ n g w)) hreaches

/-! ## Functions that await arguments -/

/-- An operator that is written as a function and was given some of its arguments. -/
inductive Awaits (p : Primitive) (given : List Value) : Value → Prop where
  | mk {before rest : List String} {x : String} {captured : Values}
      (hlength : (before ++ x :: rest).length = p.arity) (hnodup : (before ++ x :: rest).Nodup)
      (hgiven : List.Forall₂ (fun y v => captured.lookup y = some v) before given) :
      Awaits p given
        (.closure x (rest.foldr .lam (Expr.saturation p (before ++ x :: rest))) captured)

/-- Names keep their values when another name is bound after them. -/
theorem forall₂_lookup_concat {captured : Values} {xs : List String} {vs : List Value}
    (h : List.Forall₂ (fun y v => captured.lookup y = some v) xs vs) {x : String} (hx : x ∉ xs)
    (w : Value) :
    List.Forall₂ (fun y v => List.lookup y ((x, w) :: captured) = some v) (xs ++ [x])
      (vs ++ [w]) := by
  induction h with
  | nil => exact .cons List.lookup_cons_self .nil
  | @cons y v ys vs hy _ ih =>
      rw [List.mem_cons, not_or] at hx
      refine .cons ?_ (ih hx.2)
      rw [List.lookup_cons, beq_false_of_ne (Ne.symm hx.1)]
      exact hy

/-- Names are evaluated by looking them up. -/
theorem evaluateAll_vars {env : Values} {xs : List String} {vs : List Value}
    (h : List.Forall₂ (fun x v => env.lookup x = some v) xs vs) (n : Nat) :
    evaluateAll (evaluate (n + 1)) env (xs.map .var) = pure vs := by
  induction h with
  | nil => rfl
  | @cons x v xs vs hx _ ih =>
      rw [List.map_cons, evaluateAll, evaluate_var hx, ih]
      rfl

namespace Awaits

variable {p : Primitive} {given : List Value} {f : Value}

/-- An operator that waits for arguments has too few of them. -/
theorem length_lt (h : Awaits p given f) : given.length < p.arity := by
  cases h with
  | mk hlength _ hgiven =>
      rw [← hlength, ← hgiven.length_eq, List.length_append, List.length_cons]
      omega

/-- An operator as a value waits for all its arguments. -/
theorem of_wrapped (h : Wrapped p f) (harity : p.arity ≠ 0) : Awaits p [] f := by
  cases h with
  | list h => exact absurd h harity
  | @closure x rest hlength hnodup => exact @Awaits.mk p [] [] rest x [] hlength hnodup .nil

/-- With the next argument, a function that awaits arguments goes on to wait for the others or,
if it was the last one, carries out the operator. -/
theorem apply (h : Awaits p given f) (a : Value) :
    (given.length + 1 < p.arity ∧
        ∃ g, Awaits p (given ++ [a]) g ∧ ∀ n, Eval.apply (evaluate (n + 1)) f a = pure g) ∨
      given.length + 1 = p.arity ∧
        ∀ n, Eval.apply (evaluate (n + 2)) f a =
          applyPrimitive (evaluate (n + 1)) p (given ++ [a]) := by
  cases h with
  | @mk before rest x captured hlength hnodup hgiven =>
      have hx : x ∉ before := by
        rw [List.nodup_append] at hnodup
        exact fun hx => hnodup.2.2 x hx x (by simp) rfl
      have hvalues := forall₂_lookup_concat hgiven hx a
      cases rest with
      | nil =>
          have hcount : given.length + 1 = p.arity := by
            rw [← hlength, ← hgiven.length_eq]
            simp
          refine .inr ⟨hcount, fun n => ?_⟩
          change evaluateStep (evaluate (n + 1)) ((x, a) :: captured)
            (Expr.saturation p (before ++ [x])) = _
          have htake : (given ++ [a]).take p.arity = given ++ [a] :=
            List.take_of_length_le (by simp [hcount])
          have hdrop : (given ++ [a]).drop p.arity = [] :=
            List.drop_of_length_le (by simp [hcount])
          simp only [evaluateStep, saturated?_saturation (by simp) hlength,
            evaluateAll_vars hvalues, pure_bind, htake, hdrop, applyAll, bind_pure]
      | cons y rest =>
          rw [List.append_cons before] at hlength hnodup ⊢
          have hcount : given.length + 1 < p.arity := by
            rw [← hlength, ← hgiven.length_eq]
            simp
          have hhole : (rest.foldr Expr.lam
              (Expr.saturation p (before ++ [x] ++ y :: rest))).hasHole = false := by
            rw [Expr.hasHole_lams, Expr.hasHole_saturation]
          refine .inl ⟨hcount, _, ?_, fun n => close_eq_pure hhole ((x, a) :: captured) y⟩
          -- the next closure holds what was given before, since its body uses all parameters
          refine .mk hlength hnodup (forall₂_iff_getElem?.2 ⟨hvalues.length_eq, ?_⟩)
          intro i z v hz hv
          rw [lookup_restrict, (forall₂_iff_getElem?.1 hvalues).2 i z v hz hv]
          have hmem := List.mem_of_getElem? hz
          have hother := (List.nodup_append.1 hnodup).2.2 z hmem
          refine OrderedSet.mem_erase.2 ⟨Expr.mem_freeVars_lams.2 ⟨?_, ?_⟩, ?_⟩
          · exact Expr.mem_freeVars_saturation.2 (List.mem_append_left _ hmem)
          · exact fun hrest => hother z (List.mem_cons_of_mem _ hrest) rfl
          · exact hother y List.mem_cons_self

/-- A function that awaits arguments and is given all of them, and maybe more, carries out the
operator and applies the result to the others. -/
theorem of_reaches (h : Awaits p given f) {n : Nat} {ws : List Value} {v : Value}
    (hreaches : Reaches n f ws v) (hlength : p.arity ≤ given.length + ws.length) :
    ∃ r, Returns (applyPrimitive (evaluate n) p ((given ++ ws).take p.arity)) r ∧
      Reaches n r ((given ++ ws).drop p.arity) v := by
  induction hreaches generalizing given with
  | nil => exact absurd h.length_lt (Nat.not_lt.2 hlength)
  | @cons f a g v rest hfirst hrest ih =>
      rw [List.append_cons]
      rcases h.apply a with ⟨-, g', hg', happly⟩ | ⟨hlast, happly⟩
      · have hsame := hfirst.of_approximates (apply_approximates_succ n f a)
        rw [happly] at hsame
        rw [hsame.of_pure] at ih
        refine ih hg' ?_
        rw [List.length_append, List.length_singleton]
        rw [List.length_cons] at hlength
        omega
      · have hcount : (given ++ [a]).length = p.arity := by
          rw [List.length_append, List.length_singleton, hlast]
        rw [List.take_left' hcount, List.drop_left' hcount]
        refine ⟨g, ?_, hrest⟩
        cases n with
        | zero =>
            cases h with
            | mk => exact (not_returns_throw hfirst).elim
        | succ n =>
            rw [← happly]
            exact hfirst.of_approximates (apply_approximates_succ (n + 1) f a)

end Awaits

/-! ## Operators with all their arguments -/

/-- An operator is carried out on the values of its arguments, and the result is applied to the
values of the other arguments. -/
def CarriedOut (n : Nat) (env : Values) (p : Primitive) (args : List Expr) (v : Value) : Prop :=
  ∃ vs r, AllReturn n env args vs ∧
    Returns (applyPrimitive (evaluate n) p (vs.take p.arity)) r ∧ Reaches n r (vs.drop p.arity) v

end Eval

namespace Expr

variable {p : Primitive} {e : Expr}

/-- An operator that is written as a function awaits all its arguments. -/
theorem exists_awaits {x : String} {rest : List String}
    (hlength : (x :: rest).length = p.arity) (hnodup : (x :: rest).Nodup) (env : Values)
    (c : Int) :
    ∃ g c', Eval.Awaits p [] g ∧ ∀ n,
      (Eval.evaluate (n + 1) env ((x :: rest).foldr .lam (saturation p (x :: rest)))).run c =
        .ok (g, c') := by
  obtain ⟨m, hm, hrun⟩ := (Denotes.lams trivial hlength hnodup).evaluateForm_eq env
  obtain ⟨g, c', hg, hwrapped⟩ := hrun c
  have harity : p.arity ≠ 0 := by
    rw [← hlength]
    exact Nat.succ_ne_zero _
  refine ⟨g, c', .of_wrapped hwrapped harity, fun n => ?_⟩
  rw [← hg, ← hm (Eval.evaluate n)]
  rfl

/-- However an operator is written, its application to all its arguments carries it out. -/
theorem Operates.carriedOut (he : Operates True p e) {n : Nat} {env : Values} {v : Value}
    (hreturns : Eval.Returns (Eval.evaluate (n + 1) env e) v) :
    Eval.CarriedOut n env p e.arguments v := by
  obtain ⟨hdenotes, hne, harity⟩ := he
  generalize hhead : e.head = f at hdenotes
  cases hdenotes with
  | prim =>
      have hsaturated := Eval.saturated?_eq_some_iff.2 ⟨hhead, rfl, hne, harity⟩
      simp only [Eval.evaluate, Eval.evaluateStep, hsaturated] at hreturns
      obtain ⟨vs, hvs, hreturns⟩ := hreturns.of_bind
      obtain ⟨r, hr, hrest⟩ := hreturns.of_bind
      exact ⟨vs, r, .of_evaluateAll hvs, hr, .of_applyAll hrest⟩
  | @lams x rest _ hlength hnodup =>
      rw [← e.apps_spine, hhead] at hreturns
      obtain ⟨a, others, hargs⟩ := List.exists_cons_of_ne_nil hne
      rw [hargs] at hreturns harity ⊢
      obtain ⟨g, vs, hg, hvs, hreaches⟩ := Eval.exists_of_apps (by simp [Expr.head]) hreturns
      have hawaits : Eval.Awaits p [] g := by
        cases n with
        | zero => exact (Eval.not_returns_throw hg).elim
        | succ n =>
            obtain ⟨c, c', hg⟩ := hg
            obtain ⟨g', d, hg', hrun⟩ := exists_awaits hlength hnodup env c
            cases (hrun n).symm.trans hg
            exact hg'
      have henough : p.arity ≤ 0 + vs.length := by
        rw [Nat.zero_add, ← hvs.length_eq]
        exact harity
      obtain ⟨r, hr, hrest⟩ := hawaits.of_reaches hreaches henough
      exact ⟨vs, r, hvs, hr, hrest⟩

end Expr

end LetPoly
