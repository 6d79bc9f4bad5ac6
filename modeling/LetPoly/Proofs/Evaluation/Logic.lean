import LetPoly.Eval
import LetPoly.Proofs.Typing

/-!
# Reasoning about evaluation

Two properties of evaluation are proved by the same walk over its definition: that it goes
wrong only by nesting too deeply, and that without fixed points it ends.  They differ in what
they say about an outcome and in what they take for the values of a function type.

So the walk is done once, for a logic that says what it means that evaluations give results
with a property, and for a model that says which values belong to a type.  An evaluation is
seen as a family, one evaluation for each limit on nesting.

Main results:

- Theorem {lit}`ValueModel.applyPrimitive`: operators give values of their result types.
- Theorem {lit}`ValueModel.applyAll`: so does the application of a function to arguments.
-/

namespace LetPoly

/-! ## Outcomes -/

namespace Eval

/-- An outcome is a result with a property, or an error that is allowed. -/
def Regular {α : Type} (Allows : EvalError → Prop) (P : α → Prop) : Except EvalError α → Prop
  | .ok a => P a
  | .error error => Allows error

namespace Regular

variable {α β ι : Type} {Allows : EvalError → Prop} {x : Except EvalError α}

/-- A regular outcome may be followed by another. -/
theorem bind {P : α → Prop} {Q : β → Prop} {f : α → Except EvalError β} (hx : Regular Allows P x)
    (hf : ∀ a, P a → Regular Allows Q (f a)) : Regular Allows Q (x >>= f) := by
  cases x with
  | ok a => exact hf a hx
  | error error => exact hx

/-- The result of a regular outcome may be worked on. -/
theorem map {Q : β → Prop} (f : α → β) (hx : Regular Allows (fun a => Q (f a)) x) :
    Regular Allows Q (f <$> x) := by
  cases x with
  | ok a => exact hx
  | error error => exact hx

/-- Several properties of a result hold at once. -/
theorem inter {S : Set ι} {P : ι → α → Prop} (hS : S.Nonempty)
    (h : ∀ i ∈ S, Regular Allows (P i) x) : Regular Allows (fun a => ∀ i ∈ S, P i a) x := by
  cases x with
  | ok a => exact h
  | error error =>
      obtain ⟨i, hi⟩ := hS
      exact h i hi

end Regular

end Eval

/-! ## Logics and models -/

/-- A meaning for the statement that a family of evaluations gives results with a
property. -/
structure EvalLogic where
  /-- The evaluations give results with the property. -/
  Holds : ∀ {α : Type}, (Nat → Eval α) → (α → Prop) → Prop
  /-- What succeeds whatever the limit does so. -/
  ofRun : ∀ {α : Type} {m : Eval α} {P : α → Prop},
    (∀ c, ∃ a c', m.run c = .ok (a, c') ∧ P a) → Holds (fun _ => m) P
  /-- One evaluation may be followed by another. -/
  bind : ∀ {α β : Type} {m : Nat → Eval α} {f : α → Nat → Eval β} {P : α → Prop}
    {Q : β → Prop}, Holds m P → (∀ a, P a → Holds (f a) Q) →
    Holds (fun n => m n >>= fun a => f a n) Q
  /-- Several properties of a result hold at once. -/
  inter : ∀ {α ι : Type} {m : Nat → Eval α} {S : Set ι} {P : ι → α → Prop}, S.Nonempty →
    (∀ i ∈ S, Holds m (P i)) → Holds m fun a => ∀ i ∈ S, P i a

namespace EvalLogic

variable (L : EvalLogic) {α β : Type}

theorem pure {a : α} {P : α → Prop} (h : P a) : L.Holds (fun _ => Pure.pure a) P :=
  L.ofRun fun c => ⟨a, c, rfl, h⟩

/-- A result may be worked on. -/
theorem map {m : Nat → Eval α} {f : α → β} {P : α → Prop} {Q : β → Prop} (h : L.Holds m P)
    (hf : ∀ a, P a → Q (f a)) : L.Holds (fun n => m n >>= fun a => Pure.pure (f a)) Q :=
  L.bind h fun a ha => L.pure (hf a ha)

end EvalLogic

/-- A meaning for the statement that a value belongs to a type, such that functions can be
applied in a logic. -/
structure ValueModel (L : EvalLogic) where
  /-- The value belongs to the type. -/
  Valid : MonoTy → Value → Prop
  int_iff : ∀ {v}, Valid .int v ↔ ∃ n, v = .int n
  bool_iff : ∀ {v}, Valid .bool v ↔ ∃ b, v = .bool b
  list_iff : ∀ {t v}, Valid (.list t) v ↔ ∃ vs, v = .list vs ∧ ∀ w ∈ vs, Valid t w
  pair_iff : ∀ {t u v}, Valid (.pair t u) v ↔ ∃ a b, v = .pair a b ∧ Valid t a ∧ Valid u b
  apply : ∀ {t u f a}, Valid (.fn t u) f → Valid t a →
    L.Holds (fun n => Eval.apply (Eval.evaluate n) f a) (Valid u)

namespace ValueModel

variable {L : EvalLogic} (M : ValueModel L)

/-! ## Lists of expressions and of values -/

/-- A function is applied to every element of a list. -/
theorem mapList {t u : MonoTy} {f : Value} (hf : M.Valid (.fn t u) f) {vs : List Value}
    (hvs : ∀ v ∈ vs, M.Valid t v) :
    L.Holds (fun n => Eval.mapList (Eval.evaluate n) f vs) fun ws => ∀ w ∈ ws, M.Valid u w := by
  induction vs with
  | nil => exact L.pure fun w hw => absurd hw List.not_mem_nil
  | cons v vs ih =>
      simp only [Eval.mapList]
      refine L.bind (M.apply hf (hvs v List.mem_cons_self)) fun w hw => ?_
      refine L.map (ih fun v hv => hvs v (List.mem_cons_of_mem _ hv)) fun ws hws => ?_
      exact List.forall_mem_cons.2 ⟨hw, hws⟩

/-- A list is folded from the left. -/
theorem foldList {t u : MonoTy} {f : Value} (hf : M.Valid (.fn u (.fn t u)) f)
    {vs : List Value} (hvs : ∀ v ∈ vs, M.Valid t v) {acc : Value} (hacc : M.Valid u acc) :
    L.Holds (fun n => Eval.foldList (Eval.evaluate n) f acc vs) (M.Valid u) := by
  induction vs generalizing acc with
  | nil => exact L.pure hacc
  | cons v vs ih =>
      simp only [Eval.foldList]
      refine L.bind (M.apply hf hacc) fun g hg => ?_
      refine L.bind (M.apply hg (hvs v List.mem_cons_self)) fun next hnext => ?_
      exact ih (fun v hv => hvs v (List.mem_cons_of_mem _ hv)) hnext

/-- A function is applied to arguments one after the other. -/
theorem applyAll {ts : List MonoTy} {u : MonoTy} {vs : List Value}
    (hvs : List.Forall₂ M.Valid ts vs) {f : Value} (hf : M.Valid (ts.foldr .fn u) f) :
    L.Holds (fun n => Eval.applyAll (Eval.evaluate n) f vs) (M.Valid u) := by
  induction hvs generalizing f with
  | nil => exact L.pure hf
  | cons hv _ ih =>
      simp only [Eval.applyAll]
      exact L.bind (M.apply hf hv) fun g hg => ih hg

/-- Expressions are evaluated from left to right. -/
theorem evaluateAll {env : Values} {ts : List MonoTy} {es : List Expr}
    (hes : List.Forall₂ (fun t e => L.Holds (fun n => Eval.evaluate n env e) (M.Valid t)) ts es) :
    L.Holds (fun n => Eval.evaluateAll (Eval.evaluate n) env es)
      fun vs => List.Forall₂ M.Valid ts vs := by
  induction hes with
  | nil => exact L.pure .nil
  | cons he _ ih =>
      simp only [Eval.evaluateAll]
      refine L.bind he fun v hv => ?_
      exact L.map ih fun vs hvs => .cons hv hvs

/-! ## Operators -/

/-- An operator on arguments of its types gives a value of its result type. -/
theorem applyPrimitive {p : Primitive} {ts : List MonoTy} {u : MonoTy} {vs : List Value}
    (hp : p.signature.Instance (ts.foldr .fn u)) (hlength : ts.length = p.arity)
    (hvs : List.Forall₂ M.Valid ts vs) :
    L.Holds (fun n => Eval.applyPrimitive (Eval.evaluate n) p vs) (M.Valid u) := by
  obtain ⟨s, -, hs⟩ := hp
  cases p with
  | nil =>
      obtain rfl := List.length_eq_zero_iff.1 hlength
      cases hvs
      cases hs
      exact L.pure (M.list_iff.2 ⟨[], rfl, by simp⟩)
  | add | sub | mul =>
      obtain ⟨t₁, t₂, rfl⟩ := List.length_eq_two.1 hlength
      rcases hvs with _ | ⟨ha, _ | ⟨hb, _ | _⟩⟩
      cases hs
      obtain ⟨m, rfl⟩ := M.int_iff.1 ha
      obtain ⟨n, rfl⟩ := M.int_iff.1 hb
      exact L.pure (M.int_iff.2 ⟨_, rfl⟩)
  | eql =>
      obtain ⟨t₁, t₂, rfl⟩ := List.length_eq_two.1 hlength
      rcases hvs with _ | ⟨ha, _ | ⟨hb, _ | _⟩⟩
      cases hs
      obtain ⟨m, rfl⟩ := M.int_iff.1 ha
      obtain ⟨n, rfl⟩ := M.int_iff.1 hb
      exact L.pure (M.bool_iff.2 ⟨_, rfl⟩)
  | null =>
      obtain ⟨t₁, rfl⟩ := List.length_eq_one_iff.1 hlength
      rcases hvs with _ | ⟨ha, _ | _⟩
      cases hs
      obtain ⟨vs, rfl, -⟩ := M.list_iff.1 ha
      exact L.pure (M.bool_iff.2 ⟨_, rfl⟩)
  | map =>
      obtain ⟨t₁, t₂, rfl⟩ := List.length_eq_two.1 hlength
      rcases hvs with _ | ⟨hf, _ | ⟨ha, _ | _⟩⟩
      cases hs
      obtain ⟨vs, rfl, hvs⟩ := M.list_iff.1 ha
      exact L.map (M.mapList hf hvs) fun ws hws => M.list_iff.2 ⟨ws, rfl, hws⟩
  | foldl =>
      obtain ⟨t₁, t₂, t₃, rfl⟩ := List.length_eq_three.1 hlength
      rcases hvs with _ | ⟨hf, _ | ⟨hacc, _ | ⟨ha, _ | _⟩⟩⟩
      cases hs
      obtain ⟨vs, rfl, hvs⟩ := M.list_iff.1 ha
      exact M.foldList hf hvs hacc
  | pair =>
      obtain ⟨t₁, t₂, rfl⟩ := List.length_eq_two.1 hlength
      rcases hvs with _ | ⟨ha, _ | ⟨hb, _ | _⟩⟩
      cases hs
      exact L.pure (M.pair_iff.2 ⟨_, _, rfl, ha, hb⟩)
  | fst =>
      obtain ⟨t₁, rfl⟩ := List.length_eq_one_iff.1 hlength
      rcases hvs with _ | ⟨hp, _ | _⟩
      cases hs
      obtain ⟨a, b, rfl, ha, -⟩ := M.pair_iff.1 hp
      exact L.pure ha
  | snd =>
      obtain ⟨t₁, rfl⟩ := List.length_eq_one_iff.1 hlength
      rcases hvs with _ | ⟨hp, _ | _⟩
      cases hs
      obtain ⟨a, b, rfl, -, hb⟩ := M.pair_iff.1 hp
      exact L.pure hb
  | cons =>
      obtain ⟨t₁, t₂, rfl⟩ := List.length_eq_two.1 hlength
      rcases hvs with _ | ⟨ha, _ | ⟨hb, _ | _⟩⟩
      cases hs
      obtain ⟨vs, rfl, hvs⟩ := M.list_iff.1 hb
      exact L.pure (M.list_iff.2 ⟨_, rfl, List.forall_mem_cons.2 ⟨ha, hvs⟩⟩)

end ValueModel

end LetPoly
