import LetPoly.Failure
import LetPoly.Proofs.Evaluation.Invariants
import LetPoly.Proofs.Inference.Failures

/-!
# Evaluation without missing parts

An expression without missing parts, typed or not, evaluates to a value without missing parts
or fails in a way that is reported: it never comes upon a missing part, and no operator is
carried out on the wrong number of arguments.

Main results:

- Definition {lit}`Eval.wholeness`: having no missing parts is an invariant of evaluation.
- Theorem {lit}`Program.eval_whole`: a program without missing parts fails only in ways that
  are reported.
-/

namespace LetPoly

/-- No part of a value is missing, nor of the functions in it. -/
inductive Value.Whole : Value → Prop where
  | int (n : Int) : Whole (.int n)
  | bool (b : Bool) : Whole (.bool b)
  | list {vs : List Value} (h : ∀ v ∈ vs, Whole v) : Whole (.list vs)
  | pair {a b : Value} (ha : Whole a) (hb : Whole b) : Whole (.pair a b)
  | closure {x : String} {body : Expr} {captured : Values} (hbody : body.hasHole = false)
      (hcaptured : ∀ y v, captured.lookup y = some v → Whole v) :
      Whole (.closure x body captured)

/-- Evaluation without missing parts: it may end with the errors that are reported. -/
def Eval.wholeness : EvalInvariant where
  Holds := Value.Whole
  Fits env e := env.All Value.Whole ∧ e.hasHole = false
  Allows error := error.isReported = true
  int := .int
  bool := .bool
  list_iff := by
    refine ⟨fun h => ?_, .list⟩
    cases h with
    | list h => exact h
  pair_iff := by
    refine ⟨fun h => ?_, fun h => .pair h.1 h.2⟩
    cases h with
    | pair ha hb => exact ⟨ha, hb⟩
  wrapped h := by
    cases h with
    | list => exact .list (by simp)
    | closure => exact .closure (by simp) (by simp)
  apply hf ha := by
    cases hf with
    | closure hbody hcaptured => exact ⟨Values.All.cons hcaptured ha _, hbody⟩
  notFunction _ := rfl
  testNotBool _ := rfl
  wrongArgument _ _ := rfl
  tooDeep := rfl
  var h hx := h.1 _ _ hx
  unbound _ _ := rfl
  close h hbody := .closure hbody (h.1.restrict _)
  holeInBody h hbody := by
    cases hbody.symm.trans h.2
  app := by
    rintro env f a ⟨henv, he⟩
    rw [Expr.hasHole, Bool.or_eq_false_iff] at he
    exact ⟨⟨henv, he.1⟩, henv, he.2⟩
  letIn := by
    rintro env x value body ⟨henv, he⟩
    rw [Expr.hasHole, Bool.or_eq_false_iff] at he
    exact ⟨⟨henv, he.1⟩, fun v hv => ⟨henv.cons hv x, he.2⟩⟩
  ifThenElse := by
    rintro env test onTrue onFalse ⟨henv, he⟩
    rw [Expr.hasHole, Bool.or_eq_false_iff, Bool.or_eq_false_iff] at he
    exact ⟨⟨henv, he.1.1⟩, ⟨henv, he.1.2⟩, henv, he.2⟩
  list := by
    rintro env es ⟨henv, he⟩ e hmem
    rw [Expr.hasHole, Expr.hasHoleList_eq_false] at he
    exact ⟨henv, he e hmem⟩
  fix := by
    rintro env body ⟨henv, he⟩
    refine ⟨⟨henv, he⟩, fun x => ⟨henv, ?_⟩⟩
    simpa [Expr.hasHole] using he
  hole h := by
    cases h.2

/-! ## Programs -/

theorem Expr.eval_whole {e : Expr} (he : e.hasHole = false) {env : Values}
    (henv : env.All Value.Whole) (limit : Nat) :
    Eval.Regular Eval.wholeness.Allows Value.Whole (e.eval limit env) :=
  Eval.wholeness.eval limit ⟨henv, he⟩

theorem Definition.evalAll_whole {definitions : List Definition}
    (h : ∀ d ∈ definitions, d.value.hasHole = false) {values : Bindings Value}
    (hvalues : Values.All Value.Whole values.entries) (limit : Nat) :
    Eval.Regular Eval.wholeness.Allows
      (fun results : Bindings Value => Values.All Value.Whole results.entries)
      (Definition.evalAll limit values definitions) := by
  induction definitions generalizing values with
  | nil => exact hvalues
  | cons d rest ih =>
      rw [List.forall_mem_cons] at h
      exact (Expr.eval_whole h.1 hvalues limit).bind fun v hv =>
        ih h.2 (hvalues.insert hv d.name)

/-- A program without missing parts fails only in ways that are reported. -/
theorem Program.eval_whole {program : Program} (h : program.Whole) (limit : Nat) :
    Eval.Regular Eval.wholeness.Allows (fun results : Bindings Value × Value => results.2.Whole)
      (program.eval limit ∅) :=
  (Definition.evalAll_whole h.1 (by simp [Values.All]) limit).bind fun values hvalues =>
    (Expr.eval_whole h.2 hvalues limit).bind fun v hv => hv

end LetPoly
