import LetPoly.Proofs.NormalForms

/-!
# Constraints in another order

The solver takes constraints from the end and treats the two sides of each differently, so the
order of the constraints and the order of their sides show in the substitution that it returns.
They do not show in principal schemes.  Two most general solutions of the same constraints put
in types that are instances of each other, and these are the same up to renaming.

Main results:

- Theorem {lit}`MostGeneral.alphaEq`: most general solutions are unique up to renaming.
- Theorem {lit}`Constraint.Rearranged.solves_iff`: rearranged constraints have the same
  solutions.
- Theorem {lit}`Constraint.solve_rearranged`: the principal scheme of a type does not depend on
  the order of the constraints and of their sides.
-/

namespace LetPoly

/-! ## Uniqueness of most general solutions -/

/-- Two most general solutions of constraints that have the same solutions differ only in the
names of the variables that they leave. -/
theorem MostGeneral.alphaEq {C D : List (Constraint Empty)} {V W : Set String}
    {s u : Subst Empty} (hs : MostGeneral C V s) (hu : MostGeneral D W u)
    (hsame : ∀ θ, Solves θ C ↔ Solves θ D) (t : MonoTy) :
    (t.apply s).AlphaEq (t.apply u) := by
  have hforth : (t.apply s).inst u.image = t.apply u := by
    have habsorbed : s.AbsorbedBy u.image := hs.absorbed ((hsame _).2 hu.solves)
    rw [habsorbed.inst_apply, Ty.apply_eq_inst]
  have hback : (t.apply u).inst s.image = t.apply s := by
    have habsorbed : u.AbsorbedBy s.image := hu.absorbed ((hsame _).1 hs.solves)
    rw [habsorbed.inst_apply, Ty.apply_eq_inst]
  exact Ty.alphaEq_of_inst_inst hforth hback

namespace Constraint

/-- The solver succeeds on one of two lists with the same solutions if it does on the
other. -/
theorem exists_solve_of_same {C D : List (Constraint Empty)}
    (hsame : ∀ θ, Solves θ C ↔ Solves θ D) (h : ∃ s, solve C = .ok s) :
    ∃ s, solve D = .ok s := by
  obtain ⟨s, hs⟩ := h
  have hsolves : Solves s.image D := (hsame _).1 (mostGeneral_of_solve hs).solves
  obtain ⟨u, hu, -⟩ := exists_solve_of_solves hsolves
  exact ⟨u, hu⟩

/-! ## Rearranged constraints -/

/-- A constraint with its sides exchanged. -/
def swap (c : Constraint Empty) : Constraint Empty where
  left := c.right
  right := c.left

/-- Two constraints are the same up to the order of their sides. -/
def SameSides (c d : Constraint Empty) : Prop :=
  d = c ∨ d = c.swap

/-- Constraints are rearranged when they are put in another order and the sides of some of
them are exchanged. -/
def Rearranged (C D : List (Constraint Empty)) : Prop :=
  ∃ E, C.Perm E ∧ List.Forall₂ SameSides E D

theorem SameSides.eq_iff {c d : Constraint Empty} (h : c.SameSides d) (θ : Assignment) :
    c.left.inst θ = c.right.inst θ ↔ d.left.inst θ = d.right.inst θ := by
  cases h with
  | inl h => rw [h]
  | inr h =>
      rw [h]
      exact eq_comm

/-- Rearranged constraints have the same solutions. -/
theorem Rearranged.solves_iff {C D : List (Constraint Empty)} (h : Rearranged C D)
    (θ : Assignment) : Solves θ C ↔ Solves θ D := by
  obtain ⟨E, hperm, hsides⟩ := h
  have hCE : Solves θ C ↔ Solves θ E := by
    unfold Solves
    simp only [hperm.mem_iff]
  rw [hCE]
  clear hCE hperm
  induction hsides with
  | nil => rfl
  | cons hside _ ih =>
      rw [solves_cons, solves_cons]
      exact and_congr (hside.eq_iff θ) ih

/-- The order of constraints and the order of their sides make no difference to whether they
can be solved, nor to the principal scheme of any type under their solution. -/
theorem solve_rearranged {C D : List (Constraint Empty)} (h : Rearranged C D) :
    ((∃ s, solve C = .ok s) ↔ ∃ u, solve D = .ok u) ∧
    ∀ s u, solve C = .ok s → solve D = .ok u → ∀ t : MonoTy,
      ∃ σ, (t.apply s).closeOver = .ok σ ∧ (t.apply u).closeOver = .ok σ := by
  have hsame := h.solves_iff
  refine ⟨⟨exists_solve_of_same hsame, exists_solve_of_same fun θ => (hsame θ).symm⟩, ?_⟩
  intro s u hs hu t
  have halpha : (t.apply s).AlphaEq (t.apply u) :=
    (mostGeneral_of_solve hs).alphaEq (mostGeneral_of_solve hu) hsame t
  obtain ⟨σ, hσ, -⟩ := (t.apply s).exists_closeOver
  refine ⟨σ, hσ, ?_⟩
  rw [← halpha.closeOver_eq, hσ]

/-- Constraints that make three variables the same and a fourth one a list of them. -/
def chained : List (Constraint Empty) :=
  [⟨.var "a", .var "b"⟩, ⟨.var "b", .var "c"⟩, ⟨.var "d", .list (.var "a")⟩]

/-- The same constraints, the last one first and two of them the other way round. -/
def chainedBack : List (Constraint Empty) :=
  [⟨.list (.var "a"), .var "d"⟩, ⟨.var "a", .var "b"⟩, ⟨.var "c", .var "b"⟩]

/-- Two orders in which different variables are left, and the scheme that comes out of
both. -/
theorem solve_rearranged_chained :
    Rearranged chained chainedBack ∧
      ∃ s u, solve chained = .ok s ∧ solve chainedBack = .ok u ∧ s ≠ u ∧
        (Ty.fn (.var "c") (.var "d")).apply s ≠ (Ty.fn (.var "c") (.var "d")).apply u ∧
        ∃ σ, ((Ty.fn (.var "c") (.var "d")).apply s).closeOver = .ok σ ∧
          ((Ty.fn (.var "c") (.var "d")).apply u).closeOver = .ok σ := by
  have hrearranged : Rearranged chained chainedBack := by
    refine ⟨[⟨.var "d", .list (.var "a")⟩, ⟨.var "a", .var "b"⟩, ⟨.var "b", .var "c"⟩], ?_, ?_⟩
    · decide
    · exact .cons (Or.inr rfl) (.cons (Or.inl rfl) (.cons (Or.inr rfl) .nil))
  have hs : solve chained = .ok (.ofList
      [("a", .var "c"), ("b", .var "c"), ("d", .list (.var "c"))]) := rfl
  have hu : solve chainedBack = .ok (.ofList
      [("d", .list (.var "b")), ("a", .var "b"), ("c", .var "b")]) := rfl
  refine ⟨hrearranged, _, _, hs, hu, by decide, by decide, ?_⟩
  exact (solve_rearranged hrearranged).2 _ _ hs hu _

end Constraint

end LetPoly
