import LetPoly.Proofs.Inference.Admission
import LetPoly.Proofs.Inference.FixedPoints

/-!
# Soundness of inference

What inference answers is a type by the rules.  The statement that the induction carries is
about every assignment that solves the constraints, and not about the solution that is found
in the end: a local definition is typed at an assignment of its own, in which the variables
that it quantifies are renamed apart.

Main results:

- Theorem {lit}`Expr.Infers.sound`: every assignment of a set that is fit for a run types the
  expression.
- Theorem {lit}`Expr.inference_sound`: inference is sound.
-/

namespace LetPoly

namespace Expr

variable {K : Assignment → Prop} {fixable : Expr → MonoTy → Prop}

/-- Fixed points meet their side condition under every assignment of a set. -/
def FixesUnder (K : Assignment → Prop) (fixable : Expr → MonoTy → Prop)
    (results : List (Expr × MonoTy)) : Prop :=
  ∀ p ∈ results, ∀ θ, K θ → fixable p.1 (p.2.inst θ)

theorem fixesUnder_append {results rest : List (Expr × MonoTy)} :
    FixesUnder K fixable (results ++ rest) ↔
      FixesUnder K fixable results ∧ FixesUnder K fixable rest :=
  List.forall_mem_append

/-- List elements are typed at the element type. -/
theorem InfersAll.sound {Γ Δ : Env Empty} {element : MonoTy} {es : List Expr}
    {θ : Assignment}
    (ih : ∀ e ∈ es, ∀ {c c' : Int} {r : Typed Empty}, Infers Γ c e r c' → Γ.Apart c →
      Admits K c r c' → FixesUnder K fixable (e.fixResults Γ c) →
      HasTypeWith fixable Δ e (r.type.inst θ))
    {c c' : Int} {C : List (Constraint Empty)} (h : InfersAll Γ c element es C c')
    (hΓ : Γ.Apart c) (helement : ∀ a ∈ element.freeVars, ∀ d, ¬ Minted c d a)
    (hK : Admits K c ⟨element, C⟩ c') (hfix : FixesUnder K fixable (fixResultsList Γ c es))
    (hθ : K θ) : ∀ e ∈ es, HasTypeWith fixable Δ e (element.inst θ) := by
  induction es generalizing c C with
  | nil => exact fun e he => absurd he List.not_mem_nil
  | cons e es ihes =>
      obtain ⟨t, c₁, D, he, hes, rfl⟩ := infersAll_cons.1 h
      have hle := he.mentions.le
      obtain ⟨hle', hmentions⟩ := hes.mentions fun e _ => Infers.mentions
      rw [fixResultsList, he.andThen, fixesUnder_append] at hfix
      obtain ⟨hfirst, hothers⟩ := hK.elements hle hle'
        (fun ha => hΓ.not_minted (he.mentions.reaches ha) hle (Or.inl le_rfl))
        fun ha => by
          rcases ha with ha | ha
          · exact helement _ ha c₁
          · rcases hmentions ha with ha | ha
            · exact helement _ ha c₁
            · exact hΓ.not_minted ha le_rfl (Or.inr le_rfl)
      have htype : t.type.inst θ = element.inst θ :=
        hK.solves hθ ⟨t.type, element⟩ (by simp)
      intro e' he'
      rcases List.mem_cons.1 he' with rfl | he'
      · rw [← htype]
        exact ih _ List.mem_cons_self he hΓ hfirst hfix.1
      · exact ihes (fun e he => ih e (List.mem_cons_of_mem _ he)) hes (hΓ.mono hle)
          (fun a ha d hnew => helement a ha d (hnew.mono hle le_rfl)) hothers hfix.2 e' he'

/-- Every assignment of a set that is fit for a run types the expression, in each
environment that allows the uses of the run's environment under the assignment. -/
theorem Infers.sound {Γ Δ : Env Empty} {c c' : Int} {e : Expr} {r : Typed Empty}
    {θ : Assignment} (h : Infers Γ c e r c') (hΓ : Γ.Apart c) (hK : Admits K c r c')
    (hfix : FixesUnder K fixable (e.fixResults Γ c)) (hθ : K θ)
    (huses : ∀ x, Γ.uses θ x ⊆ Δ.uses Ty.var x) :
    HasTypeWith fixable Δ e (r.type.inst θ) := by
  induction e generalizing Γ Δ c c' r θ with
  | int n =>
      obtain ⟨rfl, rfl⟩ := infers_int.1 h
      exact .int
  | bool b =>
      obtain ⟨rfl, rfl⟩ := infers_bool.1 h
      exact .bool
  | var x =>
      obtain ⟨σ, t, hx, hrun, rfl⟩ := infers_var.1 h
      have hmem : t.inst θ ∈ Γ.uses θ x := by
        rw [Env.uses_of_get? θ hx]
        exact (Scheme.Instantiates.of_run hrun).sound θ
      obtain ⟨τ, hτ, hinst⟩ := huses x hmem
      exact .var hτ (Scheme.instance_iff.2 hinst)
  | prim p =>
      obtain ⟨t, hrun, rfl⟩ := infers_prim.1 h
      refine .prim (Scheme.instance_iff.2 ?_)
      rw [p.signature_closed.instances_eq _ θ]
      exact (Scheme.Instantiates.of_run hrun).sound θ
  | hole => exact absurd h infers_hole
  | lam x body ih =>
      obtain ⟨b, hb, rfl⟩ := infers_lam.1 h
      refine .lam (ih hb (hΓ.insertVar x) hK.lam hfix hθ ?_)
      intro y
      rw [Env.uses_insert, Env.uses_insert, Scheme.instances_mono, Scheme.instances_mono,
        Ty.inst_self, Ty.inst_var]
      exact update_subset_update huses Set.Subset.rfl y
  | app f a ihf iha =>
      obtain ⟨rf, c₁, ra, c₂, hf, ha, rfl, rfl⟩ := infers_app.1 h
      rw [fixResults, hf.andThen, fixesUnder_append] at hfix
      obtain ⟨hfun, harg⟩ := hK.app hf.mentions ha.mentions hΓ
      have htype : rf.type.inst θ = .fn (ra.type.inst θ) (θ (typeVarName (c₂ + 1))) :=
        hK.solves hθ ⟨rf.type, .fn ra.type (.var (typeVarName (c₂ + 1)))⟩ (by simp)
      have htyped := ihf hf hΓ hfun hfix.1 hθ huses
      rw [htype] at htyped
      exact .app htyped (iha ha (hΓ.mono hf.mentions.le) harg hfix.2 hθ huses)
  | letIn x value body ihv ihb =>
      obtain ⟨v, c₁, s, b, hv, hs, hb, rfl⟩ := infers_letIn.1 h
      have hbind : v.bindIn Γ x = .ok (Γ.bindSolved s x v.type) :=
        Typed.bindIn_eq_ok.2 ⟨s, hs, rfl⟩
      rw [fixResults, hv.andThen, fixesUnder_append, hbind] at hfix
      have hvT := hv.mentions
      have hsolves := (solves_append.1 (hK.solves hθ)).1
      let σ := (v.type.apply s).generalize (Γ.apply s)
      obtain ⟨fresh, havoid, hcopy⟩ := σ.exists_fresh_copy θ Δ.freeVars.toList
      -- the value is typed with the quantified variables renamed apart
      let θ' : Assignment := fun a =>
        (s.image a).inst (Assignment.overlay σ.bound (fun b => .var (fresh b)) θ)
      have hagree : ∀ {a}, ¬ Minted c c₁ a ∨ a ∈ (Γ.apply s).freeVars → θ' a = θ a :=
        fun ha => hΓ.inst_overlay_image hvT hs hsolves _ ha
      have hθ' : K θ' := hK.changeValue hb.mentions hθ
        ((Constraint.mostGeneral_of_solve hs).solves.comp _) hagree
      have hvalue : HasTypeWith fixable Δ value (v.type.inst θ') := by
        refine ihv hv hΓ (hK.value hΓ hs hb.mentions) hfix.1 hθ' fun y => ?_
        rw [Env.uses_congr fun a ha => hagree (Or.inl (hΓ.free ha c₁))]
        exact huses y
      rw [← Ty.inst_inst, ← Ty.apply_eq_inst] at hvalue
      have hvars : ∀ a ∈ (σ.copy θ fresh).bound,
          a ∈ (σ.copy θ fresh).body.freeVars ∧ ¬ a ∈ Δ.freeVars := by
        intro a ha
        obtain ⟨d, hd, rfl⟩ := List.mem_map.1 ha
        refine ⟨Ty.mem_freeVars_inst.2 ⟨d, (Ty.mem_bound_generalize.1 hd).1, ?_⟩, havoid d⟩
        rw [Assignment.overlay_of_mem hd, Ty.mem_freeVars_var]
      have hbody : HasTypeWith fixable (Δ.insert x (σ.copy θ fresh)) body (b.type.inst θ) := by
        refine ihb hb (hΓ.bindSolved hvT hs x) (hK.body hΓ hvT) hfix.2 hθ fun y => ?_
        rw [Env.bindSolved, Env.uses_insert, Env.uses_insert, hΓ.uses_apply hvT hs
          fun a _ => (Constraint.mostGeneral_of_solve hs).absorbed hsolves a]
        exact update_subset_update huses hcopy y
      exact .letIn hvalue hvars hbody
  | ifThenElse test onTrue onFalse iht iha ihb =>
      obtain ⟨t, c₁, a, c₂, b, ht, ha, hb, rfl⟩ := infers_ifThenElse.1 h
      rw [fixResults, ht.andThen, ha.andThen, fixesUnder_append, fixesUnder_append] at hfix
      obtain ⟨htest, htrue, hfalse⟩ := hK.ifThenElse ht.mentions ha.mentions hb.mentions hΓ
      have hΓ₁ := hΓ.mono ht.mentions.le
      have hbool : t.type.inst θ = .bool := hK.solves hθ ⟨t.type, .bool⟩ (by simp)
      have hsame : a.type.inst θ = b.type.inst θ :=
        hK.solves hθ ⟨a.type, b.type⟩ (by simp)
      have httyped := iht ht hΓ htest hfix.1 hθ huses
      have hatyped := iha ha hΓ₁ htrue hfix.2.1 hθ huses
      have hbtyped := ihb hb (hΓ₁.mono ha.mentions.le) hfalse hfix.2.2 hθ huses
      rw [hbool] at httyped
      rw [← hsame] at hbtyped
      exact .ifThenElse httyped hatyped hbtyped
  | fix body ih =>
      rw [fixResults, h.andThen, fixesUnder_append] at hfix
      obtain ⟨b, c₁, hb, rfl, rfl⟩ := infers_fix.1 h
      have htype : b.type.inst θ = .fn (θ (typeVarName (c₁ + 1))) (θ (typeVarName (c₁ + 1))) :=
        hK.solves hθ ⟨b.type, .fn (.var (typeVarName (c₁ + 1))) (.var (typeVarName (c₁ + 1)))⟩
          (by simp)
      refine .fix (hfix.2 _ (List.mem_singleton.2 rfl) θ hθ) ?_
      rw [Ty.inst_var, ← htype]
      exact ih hb hΓ hK.fix hfix.1 hθ huses
  | list es ih =>
      obtain ⟨C, hC, rfl⟩ := infers_list.1 h
      have htype : θ (typeVarName (c + 1)) = .list (θ (typeVarName (c + 1 + 1))) :=
        hK.solves hθ ⟨.var (typeVarName (c + 1)), .list (.var (typeVarName (c + 1 + 1)))⟩
          (by simp)
      rw [Ty.inst_var, htype]
      refine .list (InfersAll.sound (fun e he {_ _ _} hrun hΓ' hadmits hfix' => ih e he hrun hΓ'
        hadmits hfix' hθ huses) hC (hΓ.mono (by omega)) ?_ hK.list hfix hθ)
      intro a ha d
      rw [Ty.mem_freeVars_var] at ha
      exact ha ▸ (minted_succ (c + 1)).not_minted le_rfl

/-- Every instance of an inferred type is a type by the rules, where fixed points meet a
side condition that they meet under every solution. -/
theorem hasTypeWith_of_inference {Γ : Env Empty} {e : Expr} {r : Inference Empty}
    (hΓ : Γ.Closed) (h : e.inference Γ = .ok r)
    (hfix : FixesUnder (fun θ => Solves θ r.constraints) fixable (e.fixResults Γ 0))
    (ρ : Assignment) : HasTypeWith fixable Γ e (r.type.inst ρ) := by
  obtain ⟨v, c, hrun, hfinish⟩ := inference_eq_ok.1 h
  obtain ⟨s, σ, hsolve, -, rfl⟩ := Typed.finish_eq_ok.1 hfinish
  have hsolves : Solves (fun a => (s.image a).inst ρ) v.constraints :=
    (Constraint.mostGeneral_of_solve hsolve).solves.comp ρ
  have htyped : HasTypeWith fixable Γ e (v.type.inst fun a => (s.image a).inst ρ) :=
    hrun.sound (hΓ.apart 0) (admits_solves 0 v c) hfix hsolves
      fun x => (congrFun (hΓ.uses_eq _ _) x).subset
  rwa [← Ty.inst_inst, ← Ty.apply_eq_inst] at htyped

/-- Every instance of an inferred scheme is a type by the rules. -/
theorem hasType_of_scheme {Γ : Env Empty} {e : Expr} {σ : Scheme Empty} (hΓ : Γ.Closed)
    (h : e.scheme Γ = .ok σ) {t : MonoTy} (ht : σ.Instance t) : HasType Γ e t := by
  obtain ⟨r, hr, rfl⟩ := scheme_eq_ok.1 h
  obtain ⟨ρ, rfl⟩ := ((scheme_of_inference hr).2 t).1 ht
  exact hasTypeWith_of_inference hΓ hr (fun _ _ _ _ => trivial) ρ

/-- Inference is sound: in an environment of closed schemes it answers a type by the rules,
and so is every instance of the scheme that it answers. -/
theorem inference_sound {Γ : Env Empty} {e : Expr} {r : Inference Empty} (hΓ : Γ.Closed)
    (h : e.inference Γ = .ok r) :
    HasType Γ e r.type ∧ ∀ t, r.scheme.Instance t → HasType Γ e t := by
  constructor
  · have hself : HasType Γ e (r.type.inst Ty.var) :=
      hasTypeWith_of_inference hΓ h (fun _ _ _ _ => trivial) Ty.var
    rwa [Ty.inst_self] at hself
  · exact fun t ht => hasType_of_scheme hΓ (scheme_eq_ok.2 ⟨r, h, rfl⟩) ht

/-- An environment with the identity. -/
def withIdentity : Env Empty :=
  Bindings.insert ∅ "id" ⟨["a"], .fn (.var "a") (.var "a")⟩

theorem closed_withIdentity : Env.Closed withIdentity :=
  Env.closed_single (by decide) "id"

/-- A function with a local definition that is used at two types, and that is monomorphic in
the type of the parameter. -/
def tagTwice : Expr :=
  .lam "x" (.letIn "tag"
    (.lam "y" (.app (.app (.prim .pair) (.app (.var "id") (.var "x"))) (.var "y")))
    (.app (.app (.prim .pair) (.app (.var "tag") (.int 1))) (.app (.var "tag") (.var "x"))))

/-- The scheme of that function. -/
def tagTwiceScheme : Scheme Empty :=
  ⟨["a"], .fn (.var "a") (.pair (.pair (.var "a") .int) (.pair (.var "a") (.var "a")))⟩

theorem scheme_tagTwice : tagTwice.scheme withIdentity = .ok tagTwiceScheme :=
  Checked.eq_ok_of_toOption (by decide +kernel)

/-- Inference on a local definition under a parameter, and a type that it stands for. -/
theorem inference_sound_tagTwice :
    Env.Closed withIdentity ∧ ∃ r, tagTwice.inference withIdentity = .ok r ∧
      r.scheme = tagTwiceScheme ∧ HasType withIdentity tagTwice r.type ∧
      HasType withIdentity tagTwice
        (.fn .bool (.pair (.pair .bool .int) (.pair .bool .bool))) := by
  obtain ⟨r, hr, hscheme⟩ := scheme_eq_ok.1 scheme_tagTwice
  obtain ⟨htype, hinstances⟩ := inference_sound closed_withIdentity hr
  refine ⟨closed_withIdentity, r, hr, hscheme, htype, hinstances _ ?_⟩
  rw [hscheme]
  exact ⟨.ofList [("a", .bool)], by decide, by decide⟩

end Expr

end LetPoly
