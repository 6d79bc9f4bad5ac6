import LetPoly.Proofs.Evaluation.Invariants

/-!
# Closed values

A value is closed when every function in it holds a value for each name that its body uses,
the parameter apart.  Evaluation makes functions in three ways: from function expressions, from
operators and by unrolling fixed points.  All of them are closed, so an expression whose names
have closed values never comes upon a name without a value, whether it is typed or not.

Main results:

- Definition {lit}`Eval.closedness`: closed values are an invariant of evaluation.
- Theorem {lit}`Expr.eval_never_unbound`: no name without a value, and closed results.
-/

namespace LetPoly

/-- Every function in a value, and in the values that functions hold, has values for the names
that its body uses. -/
inductive Value.Closed : Value → Prop where
  | int (n : Int) : Closed (.int n)
  | bool (b : Bool) : Closed (.bool b)
  | list {vs : List Value} (h : ∀ v ∈ vs, Closed v) : Closed (.list vs)
  | pair {a b : Value} (ha : Closed a) (hb : Closed b) : Closed (.pair a b)
  | closure {x : String} {body : Expr} {captured : Values}
      (hbody : ∀ y ∈ body.freeVars, y ≠ x → ∃ v, captured.lookup y = some v)
      (hcaptured : ∀ y v, captured.lookup y = some v → Closed v) :
      Closed (.closure x body captured)
  | hole : Closed .hole

/-- An environment has values for the names that an expression uses. -/
def Values.Binds (env : Values) (e : Expr) : Prop :=
  ∀ x ∈ e.freeVars, ∃ v, env.lookup x = some v

/-- A name that is bound apart from a binder is bound behind it. -/
theorem Values.exists_lookup_cons {env : Values} {x y : String} (v : Value)
    (h : y ≠ x → ∃ w, env.lookup y = some w) : ∃ w, ((x, v) :: env).lookup y = some w := by
  by_cases hyx : y = x
  · exact ⟨v, by rw [hyx, List.lookup_cons_self]⟩
  · have hbeq : (y == x) = false := by simp [hyx]
    rw [List.lookup_cons, hbeq]
    exact h hyx

/-- The function that an operator becomes uses no names but its own parameters. -/
theorem Eval.Wrapped.closed {p : Primitive} {v : Value} (h : Eval.Wrapped p v) : v.Closed := by
  cases h with
  | list => exact .list (by simp)
  | @closure x rest =>
      refine .closure (fun y hy hyx => ?_) (by simp)
      exact absurd (Expr.eq_of_mem_freeVars_lams_saturation hy) hyx

/-- Evaluation of expressions all of whose names have closed values: it may end with any error
but that a name has no value. -/
def Eval.closedness : EvalInvariant where
  Holds := Value.Closed
  Fits env e := env.All Value.Closed ∧ env.Binds e
  Allows error := ∀ x, error ≠ .unbound x
  int := .int
  bool := .bool
  list_iff := by
    refine ⟨fun h => ?_, .list⟩
    cases h with
    | list h => exact h
  pair_iff := by
    refine ⟨fun h => ?_, fun h => .pair h.1 h.2⟩
    cases h with
    | pair ha hb => exact ⟨ha, hb⟩
  wrapped h := h.closed
  apply hf ha := by
    cases hf with
    | closure hbody hcaptured =>
        refine ⟨Values.All.cons hcaptured ha _, fun y hy => ?_⟩
        exact Values.exists_lookup_cons _ (hbody y hy)
  notFunction _ _ := by simp
  testNotBool _ _ := by simp
  wrongArgument _ _ _ := by simp
  tooDeep _ := by simp
  var h hx := h.1 _ _ hx
  unbound h hx := by
    obtain ⟨v, hv⟩ := h.2 _ (Expr.mem_freeVars_var.2 rfl)
    cases hx.symm.trans hv
  close := by
    rintro env x body ⟨henv, hbinds⟩ _
    refine .closure (fun y hy hyx => ?_) (henv.restrict _)
    rw [Eval.lookup_restrict env _ (OrderedSet.mem_erase.2 ⟨hy, hyx⟩)]
    exact hbinds y (Expr.mem_freeVars_lam.2 ⟨hy, hyx⟩)
  holeInBody _ _ _ := by simp
  app := by
    rintro env f a ⟨henv, hbinds⟩
    exact ⟨⟨henv, fun x hx => hbinds x (by simp [hx])⟩, henv, fun x hx => hbinds x (by simp [hx])⟩
  letIn := by
    rintro env x value body ⟨henv, hbinds⟩
    refine ⟨⟨henv, fun y hy => hbinds y (by simp [hy])⟩, fun v hv => ⟨henv.cons hv x, ?_⟩⟩
    intro y hy
    exact Values.exists_lookup_cons v fun hyx => hbinds y (by simp [hy, hyx])
  ifThenElse := by
    rintro env test onTrue onFalse ⟨henv, hbinds⟩
    exact ⟨⟨henv, fun x hx => hbinds x (by simp [hx])⟩,
      ⟨henv, fun x hx => hbinds x (by simp [hx])⟩, henv, fun x hx => hbinds x (by simp [hx])⟩
  list := by
    rintro env es ⟨henv, hbinds⟩ e he
    exact ⟨henv, fun x hx => hbinds x (Expr.mem_freeVars_list.2 ⟨e, he, hx⟩)⟩
  fix := by
    rintro env body ⟨henv, hbinds⟩
    refine ⟨⟨henv, fun y hy => hbinds y (Expr.mem_freeVars_fix.2 hy)⟩, fun x => ⟨henv, ?_⟩⟩
    -- the closure that unrolls a fixed point uses what the fixed point uses
    intro y hy
    obtain ⟨hy, hyx⟩ := Expr.mem_freeVars_lam.1 hy
    refine hbinds y ?_
    simpa [hyx] using hy
  hole _ _ := by simp

/-- Where all names that an expression uses have closed values, evaluation never comes upon a
name without a value, under any limit on nesting, and what it gives is closed. -/
theorem Expr.eval_never_unbound {e : Expr} {env : Values}
    (henv : ∀ x v, env.lookup x = some v → v.Closed)
    (hnames : ∀ x ∈ e.freeVars, ∃ v, env.lookup x = some v) (limit : Nat) :
    (∀ x, e.eval limit env ≠ .error (.unbound x)) ∧
      ∀ v, e.eval limit env = .ok v → v.Closed := by
  have hregular : Eval.Regular Eval.closedness.Allows Value.Closed (e.eval limit env) :=
    Eval.closedness.eval limit ⟨henv, hnames⟩
  constructor
  · intro x hx
    rw [hx] at hregular
    exact hregular x rfl
  · intro v hv
    rw [hv] at hregular
    exact hregular

/-- An expression with a partially applied operator and a fixed point, which both use a name
from outside. -/
def stepsAndLoop : Expr :=
  (Expr.prim .pair).apps [
    (Expr.prim .map).apps [.app (.prim .add) (.var "step"), .list [.int 1, .int 4]],
    .fix (.lam "loop" (.lam "n" (.app (.var "loop") (.app (.prim .cons) (.var "step")))))]

/-- The first part of its value is a list, the second a function that holds the function which
unrolls the fixed point. -/
theorem Expr.eval_never_unbound_stepsAndLoop :
    (∀ x v, List.lookup x [("step", Value.int 2)] = some v → v.Closed) ∧
      (∀ x ∈ stepsAndLoop.freeVars, ∃ v, List.lookup x [("step", Value.int 2)] = some v) ∧
      ∃ body captured, stepsAndLoop.eval 6 [("step", .int 2)] =
          .ok (.pair (.list [.int 3, .int 6]) (.closure "n" body captured)) ∧
        (Value.pair (.list [.int 3, .int 6]) (.closure "n" body captured)).Closed := by
  have henv : Values.All Value.Closed [("step", .int 2)] :=
    Values.All.cons (by simp [Values.All]) (.int 2) "step"
  have hnames : ∀ x ∈ stepsAndLoop.freeVars,
      ∃ v, List.lookup x [("step", Value.int 2)] = some v := by
    intro x hx
    obtain rfl : x = "step" := List.mem_singleton.1 hx
    exact ⟨_, rfl⟩
  refine ⟨henv, hnames, _, _, rfl, ?_⟩
  exact (Expr.eval_never_unbound henv hnames 6).2 _ rfl

end LetPoly
