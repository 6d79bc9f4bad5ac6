import LetPoly.Proofs.Assignment
import LetPoly.Proofs.OrderedMaps

/-!
# Composition of substitutions

Substitutions with composition are a monoid that acts on types.  The laws are exact:
substitutions are equal only if they list the same variables in the same order, so how
compositions are bracketed does not show in what is printed.  They hold for substitutions that
share variables, map a variable to itself or to a type in which it occurs.

Main results:

- Theorem {lit}`Ty.apply_compose`: a composition acts like one substitution after the other.
- Theorem {lit}`Subst.compose_assoc`: composition is associative, the order of the variables
  included.
- Theorem {lit}`Subst.composition_laws`: the laws together, and the order of the variables.
-/

namespace LetPoly

theorem Ty.apply_compose (t : MonoTy) (s₁ s₂ : Subst Empty) :
    t.apply (Subst.compose s₁ s₂) = (t.apply s₂).apply s₁ := by
  rw [apply_eq_inst, apply_eq_inst, apply_eq_inst, inst_inst]
  exact inst_congr fun a _ => Subst.image_compose s₁ s₂ a

theorem Constraint.apply_compose (c : Constraint Empty) (s₁ s₂ : Subst Empty) :
    c.apply (Subst.compose s₁ s₂) = (c.apply s₂).apply s₁ := by
  simp only [apply, Ty.apply_compose]

namespace Subst

/-- The first substitution's variables keep their places, and the second's new variables
follow. -/
theorem names_compose (s₁ s₂ : Subst Empty) :
    (compose s₁ s₂).names = s₁.names ++ s₂.names.filter fun a => !s₁.names.contains a := by
  rw [compose, Bindings.names_merge, Bindings.names_mapValues]

/-- Composition is associative, the order of the variables included. -/
theorem compose_assoc (s₁ s₂ s₃ : Subst Empty) :
    compose s₁ (compose s₂ s₃) = compose (compose s₁ s₂) s₃ := by
  refine Bindings.ext_names ?_ fun x _ => ?_
  · simp only [names_compose, List.filter_append, List.filter_filter, List.append_assoc]
    congr 2
    -- a variable of the last is new behind both when it is new behind each of them
    refine List.filter_congr fun a _ => ?_
    rw [Bool.eq_iff_iff]
    simp only [List.contains_eq_mem, List.mem_append, List.mem_filter, Bool.and_eq_true,
      Bool.not_eq_true', decide_eq_false_iff_not]
    tauto
  · simp only [get?_compose]
    cases Bindings.get? s₃ x with
    | none => simp
    | some t => simp [Ty.apply_compose]

/-- Composing with the empty substitution on the right changes nothing. -/
@[simp] theorem compose_empty (s : Subst Empty) : compose s ∅ = s := by
  refine Bindings.ext_names ?_ fun x _ => ?_
  · simp [names_compose]
  · simp [get?_compose]

/-- Substitutions are a monoid that acts on types: a composition acts like the second
substitution followed by the first, and composition is associative with the empty substitution
as its unit.  Each law holds with the order of the variables, which is that of the first
substitution followed by the new ones of the second. -/
theorem composition_laws (s₁ s₂ s₃ : Subst Empty) :
    (∀ t : MonoTy, t.apply (compose s₁ s₂) = (t.apply s₂).apply s₁) ∧
    (compose (compose s₁ s₂) s₃).entries = (compose s₁ (compose s₂ s₃)).entries ∧
    (compose ∅ s₁).entries = s₁.entries ∧
    (compose s₁ ∅).entries = s₁.entries ∧
    (compose s₁ s₂).names = s₁.names ++ s₂.names.filter fun a => !s₁.names.contains a := by
  refine ⟨fun t => t.apply_compose s₁ s₂, ?_, ?_, ?_, names_compose s₁ s₂⟩
  · rw [compose_assoc]
  · rw [empty_compose]
  · rw [compose_empty]

end Subst

end LetPoly
