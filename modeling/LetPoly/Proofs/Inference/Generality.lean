import LetPoly.Proofs.Inference.Completeness

/-!
# Inference under more general environments

A definition may be replaced by one with a more general scheme: what used the old one is
still typed, with a scheme at least as general as before.  The two runs make different
variables, collect different constraints and quantify differently at every local definition,
so they are not compared step by step.  What inference answers under the first environment is
a typing at every instance of the answer; a typing asks for the uses of names only, and the
second environment allows them all; and inference answers every typing.

Main results:

- Theorem {lit}`Expr.exists_scheme_iff`: the types of an expression by the uses of a closed
  environment are the instances of the scheme that inference answers.
- Theorem {lit}`Definition.extend_generalizedBy`: definitions keep one environment more
  general than another.
- Theorem {lit}`Expr.inference_monotone`: inference is monotone in the environment.
-/

namespace LetPoly

/-! ## More general schemes and environments -/

/-- Every instance of a scheme is an instance of another one. -/
def Scheme.GeneralizedBy (σ τ : Scheme Empty) : Prop :=
  ∀ t, σ.Instance t → τ.Instance t

namespace Env

/-- Every name of an environment has a more general scheme in another one, which may have
further names. -/
def GeneralizedBy (Γ Δ : Env Empty) : Prop :=
  ∀ x σ, Γ.get? x = some σ → ∃ τ, Δ.get? x = some τ ∧ σ.GeneralizedBy τ

namespace GeneralizedBy

variable {Γ Δ : Env Empty}

theorem uses_subset (h : Γ.GeneralizedBy Δ) (x : String) :
    Γ.uses Ty.var x ⊆ Δ.uses Ty.var x := by
  intro t ht
  obtain ⟨σ, hx, hσ⟩ := ht
  obtain ⟨τ, hx', hτ⟩ := h x σ hx
  exact ⟨τ, hx', Scheme.instance_iff.1 (hτ t (Scheme.instance_iff.2 hσ))⟩

theorem insert (h : Γ.GeneralizedBy Δ) {σ τ : Scheme Empty} (hστ : σ.GeneralizedBy τ)
    (x : String) : GeneralizedBy (Γ.insert x σ) (Δ.insert x τ) := by
  intro y ρ hy
  rw [Bindings.get?_insert] at hy ⊢
  by_cases hyx : y = x
  · rw [if_pos hyx] at hy ⊢
    cases hy
    exact ⟨τ, rfl, hστ⟩
  · rw [if_neg hyx] at hy ⊢
    exact h y ρ hy

end GeneralizedBy

end Env

/-! ## Expressions -/

namespace Expr

variable {Γ Δ : Env Empty} {e : Expr}

/-- A run with a solution ends in a scheme, of which the solution's type is an instance. -/
theorem Infers.exists_scheme {c : Int} {v : Typed Empty} {θ : Assignment}
    (h : Infers Γ 0 e v c) (hθ : Solves θ v.constraints) :
    ∃ σ, e.scheme Γ = .ok σ ∧ σ.Instance (v.type.inst θ) := by
  obtain ⟨s, hs, hgeneral⟩ := Constraint.exists_solve_of_solves hθ
  obtain ⟨σ, hclose, -, hinstances⟩ := (v.type.apply s).exists_closeOver
  have hfinish : v.finish = .ok ⟨v.constraints, s, v.type.apply s, σ⟩ :=
    Typed.finish_eq_ok.2 ⟨s, σ, hs, hclose, rfl⟩
  refine ⟨σ, scheme_eq_ok.2 ⟨_, inference_eq_ok.2 ⟨v, c, h, hfinish⟩, rfl⟩, ?_⟩
  exact (hinstances _).2 ⟨θ, (hgeneral.absorbed hθ).inst_apply v.type⟩

/-- The types of an expression by the uses of a closed environment are the instances of the
scheme that inference answers. -/
theorem exists_scheme_iff (hΓ : Γ.Closed) {t : MonoTy} :
    (∃ σ, e.scheme Γ = .ok σ ∧ σ.Instance t) ↔
      TypedBy (fun _ _ => True) (Γ.uses Ty.var) e t := by
  constructor
  · rintro ⟨σ, hσ, ht⟩
    obtain ⟨r, hr, rfl⟩ := scheme_eq_ok.1 hσ
    obtain ⟨ρ, rfl⟩ := ((scheme_of_inference hr).2 t).1 ht
    exact (hasTypeWith_of_inference hΓ hr (fun _ _ _ _ => trivial) ρ).typedBy fun _ _ _ hu => hu
  · intro h
    obtain ⟨v, c, ρ, hrun, -, hsolves, htype⟩ :=
      h.realized (hΓ.apart 0) fun x => Set.Subset.rfl
    exact htype ▸ hrun.exists_scheme hsolves

/-- An expression that is typed under a closed environment is typed under a more general one,
and its scheme is more general. -/
theorem scheme_generalizedBy {σ : Scheme Empty} (hΓ : Γ.Closed) (hΔ : Δ.Closed)
    (h : Γ.GeneralizedBy Δ) (hσ : e.scheme Γ = .ok σ) :
    ∃ τ, e.scheme Δ = .ok τ ∧ σ.GeneralizedBy τ := by
  have htyped : ∀ t, σ.Instance t → ∃ τ, e.scheme Δ = .ok τ ∧ τ.Instance t := by
    intro t ht
    have hby := (exists_scheme_iff hΓ).1 ⟨σ, hσ, ht⟩
    exact (exists_scheme_iff hΔ).2 (hby.weaken fun x _ => h.uses_subset x)
  -- one instance shows that inference succeeds, and its answer is the same for all of them
  obtain ⟨t₀, ht₀⟩ := σ.instances_nonempty Ty.var
  obtain ⟨τ, hτ, -⟩ := htyped t₀ (Scheme.instance_iff.2 ht₀)
  refine ⟨τ, hτ, fun t ht => ?_⟩
  obtain ⟨τ', hτ', ht'⟩ := htyped t ht
  rw [hτ] at hτ'
  cases hτ'
  exact ht'

end Expr

/-! ## Definitions -/

/-- Definitions that are typed one after the other under a closed environment are so under a
more general one, and leave a more general one. -/
theorem Definition.extend_generalizedBy {Γ Γ' Δ : Env Empty} {definitions : List Definition}
    (hΓ : Γ.Closed) (hΔ : Δ.Closed) (h : Γ.GeneralizedBy Δ)
    (hextend : Definition.extend Γ definitions = .ok Γ') :
    ∃ Δ', Definition.extend Δ definitions = .ok Δ' ∧ Γ'.GeneralizedBy Δ' := by
  induction definitions generalizing Γ Δ with
  | nil =>
      cases hextend
      exact ⟨Δ, rfl, h⟩
  | cons d rest ih =>
      obtain ⟨σ, hσ, hrest⟩ := Definition.extend_cons hextend
      obtain ⟨τ, hτ, hστ⟩ := Expr.scheme_generalizedBy hΓ hΔ h hσ
      rw [Definition.extend_cons_of_scheme hτ]
      exact ih (hΓ.insert (Expr.closed_of_scheme hσ) d.name)
        (hΔ.insert (Expr.closed_of_scheme hτ) d.name) (h.insert hστ d.name) hrest

namespace Expr

/-- Inference is monotone in the environment: under a more general environment all that was
typed is typed, expressions and whole programs, with a scheme at least as general. -/
theorem inference_monotone {Γ Δ : Env Empty} (hΓ : Γ.Closed) (hΔ : Δ.Closed)
    (h : Γ.GeneralizedBy Δ) :
    (∀ (e : Expr) (σ : Scheme Empty), e.scheme Γ = .ok σ →
      ∃ τ, e.scheme Δ = .ok τ ∧ σ.GeneralizedBy τ) ∧
    ∀ (program : Program) (Γ' : Env Empty) (σ : Scheme Empty),
      program.infer Γ = .ok (Γ', σ) →
      ∃ Δ' τ, program.infer Δ = .ok (Δ', τ) ∧ Γ'.GeneralizedBy Δ' ∧ σ.GeneralizedBy τ := by
  refine ⟨fun e σ hσ => scheme_generalizedBy hΓ hΔ h hσ, fun program Γ' σ hinfer => ?_⟩
  obtain ⟨hextend, hbody⟩ := Program.infer_eq_ok_iff.1 hinfer
  obtain ⟨Δ', hextend', h'⟩ := Definition.extend_generalizedBy hΓ hΔ h hextend
  have hΓ' : Γ'.Closed := Definition.extend_closed hΓ hextend
  have hΔ' : Δ'.Closed := Definition.extend_closed hΔ hextend'
  obtain ⟨τ, hbody', hστ⟩ := scheme_generalizedBy hΓ' hΔ' h' hbody
  exact ⟨Δ', τ, Program.infer_eq_ok_iff.2 ⟨hextend', hbody'⟩, h', hστ⟩

/-- An environment in which the identity is one of lists only. -/
def withListIdentity : Env Empty :=
  Bindings.insert ∅ "id" ⟨["a"], .fn (.list (.var "a")) (.list (.var "a"))⟩

theorem closed_withListIdentity : Env.Closed withListIdentity :=
  Env.closed_single (by decide) "id"

theorem withListIdentity_generalizedBy : Env.GeneralizedBy withListIdentity withIdentity := by
  have hempty : Env.GeneralizedBy ∅ ∅ := by
    intro x σ hx
    simp at hx
  refine hempty.insert (fun t ht => ?_) "id"
  obtain ⟨η, rfl⟩ := Scheme.instance_iff.1 ht
  exact Scheme.instance_iff.2 ⟨fun _ => .list (η "a"), rfl⟩

/-- A program that defines a function by the identity and applies it to a list. -/
def tagList : Program :=
  ⟨[⟨"tags", tagTwice⟩], .app (.var "tags") (.list [.int 1])⟩

/-- The scheme of the function when the identity is one of lists only. -/
def tagListsScheme : Scheme Empty :=
  ⟨["a"], .fn (.list (.var "a")) (.pair (.pair (.list (.var "a")) .int)
    (.pair (.list (.var "a")) (.list (.var "a"))))⟩

/-- A program that is typed with an identity of lists, and with the identity of all types in
its place. -/
theorem inference_monotone_tagList :
    Env.Closed withListIdentity ∧ Env.Closed withIdentity ∧
      Env.GeneralizedBy withListIdentity withIdentity ∧
      tagTwice.scheme withListIdentity = .ok tagListsScheme ∧
      (∃ τ, tagTwice.scheme withIdentity = .ok τ ∧ tagListsScheme.GeneralizedBy τ) ∧
      ∃ Γ σ, tagList.infer withListIdentity = .ok (Γ, σ) ∧
        ∃ Δ τ, tagList.infer withIdentity = .ok (Δ, τ) ∧ Γ.GeneralizedBy Δ ∧
          σ.GeneralizedBy τ := by
  have hscheme : tagTwice.scheme withListIdentity = .ok tagListsScheme :=
    Checked.eq_ok_of_toOption (by decide +kernel)
  have hbody : tagList.body.scheme (withListIdentity.insert "tags" tagListsScheme) =
      .ok (.mono (.pair (.pair (.list .int) .int) (.pair (.list .int) (.list .int)))) :=
    Checked.eq_ok_of_toOption (by decide +kernel)
  have hextend : Definition.extend withListIdentity tagList.definitions =
      .ok (withListIdentity.insert "tags" tagListsScheme) :=
    Definition.extend_cons_of_scheme (d := ⟨"tags", tagTwice⟩) hscheme []
  have hinfer := Program.infer_eq_ok_iff.2 ⟨hextend, hbody⟩
  obtain ⟨hexpressions, hprograms⟩ := inference_monotone closed_withListIdentity
    closed_withIdentity withListIdentity_generalizedBy
  exact ⟨closed_withListIdentity, closed_withIdentity, withListIdentity_generalizedBy,
    hscheme, hexpressions _ _ hscheme, _, _, hinfer, hprograms _ _ _ hinfer⟩

end Expr

end LetPoly
