import LetPoly.Proofs.Inference.Soundness

/-!
# Completeness of inference

Inference succeeds on every expression that has a type by the rules, and what it answers is
the most general type.  The induction is on the typing: it turns a typing into a solution of
the constraints that inference collects, variable by variable as they are made.  A local
definition is typed at a set of types; one of them shows that its constraints can be solved,
and all of them are instances of what is quantified then.

Main results:

- Theorem {lit}`Expr.TypedBy.realized`: a typing extends to a solution of a run.
- Theorem {lit}`Expr.scheme_complete`: inference is complete, and its answer is principal.
-/

namespace LetPoly

/-! ## Assignments that differ in new variables only -/

/-- Two assignments agree on all variables but those made while a counter moved. -/
def Assignment.Extends (ρ θ : Assignment) (c c' : Int) : Prop :=
  ∀ a, ¬ Minted c c' a → ρ a = θ a

namespace Assignment.Extends

variable {θ ρ π : Assignment} {c c₁ c₂ : Int}

theorem refl (θ : Assignment) (c c' : Int) : θ.Extends θ c c' :=
  fun _ _ => rfl

theorem trans (h₁ : ρ.Extends θ c c₁) (h₂ : π.Extends ρ c₁ c₂) (hle : c ≤ c₁)
    (hle' : c₁ ≤ c₂) : π.Extends θ c c₂ := by
  intro a ha
  rw [h₂ a fun hnew => ha (hnew.mono hle le_rfl), h₁ a fun hnew => ha (hnew.mono le_rfl hle')]

/-- The next variable may be given any type. -/
theorem update (θ : Assignment) (c : Int) (t : MonoTy) :
    Assignment.Extends (Function.update θ (typeVarName (c + 1)) t) θ c (c + 1) := by
  intro a ha
  have hne : a ≠ typeVarName (c + 1) := by
    rintro rfl
    exact ha (minted_succ c)
  rw [Function.update_of_ne hne]

/-- The uses that an environment allows do not depend on variables made later. -/
theorem uses_eq {Γ : Env Empty} (h : ρ.Extends θ c c₁) (hΓ : Γ.Apart c) :
    Γ.uses ρ = Γ.uses θ :=
  Env.uses_congr fun a ha => h a (hΓ.free ha c₁)

section Later

variable {Γ : Env Empty} {r : Typed Empty}

/-- What an assignment does to a run's result does not depend on variables made later. -/
theorem eq_of_mentions (h : π.Extends ρ c₁ c₂) (hr : Expr.Tracked Γ c r c₁) (hΓ : Γ.Apart c)
    {a : String} (ha : r.Mentions a) : π a = ρ a := by
  refine h a fun hnew => ?_
  rcases hr.reaches ha with hfree | hminted
  · exact hΓ.free hfree c₂ (hnew.mono hr.le le_rfl)
  · exact hminted.not_minted le_rfl hnew

theorem inst_type (h : π.Extends ρ c₁ c₂) (hr : Expr.Tracked Γ c r c₁) (hΓ : Γ.Apart c) :
    r.type.inst π = r.type.inst ρ :=
  Ty.inst_congr fun _ ha => h.eq_of_mentions hr hΓ (Or.inl ha)

theorem solves (h : π.Extends ρ c₁ c₂) (hr : Expr.Tracked Γ c r c₁) (hΓ : Γ.Apart c)
    (hρ : Solves ρ r.constraints) : Solves π r.constraints :=
  hρ.congr fun _ ha => h.eq_of_mentions hr hΓ (Or.inr ha)

end Later

end Assignment.Extends

/-! ## Typings as solutions -/

namespace Expr

/-- A run on an expression succeeds, and an assignment extends to a solution that gives the
expression a type. -/
def Realized (Γ : Env Empty) (c : Int) (θ : Assignment) (e : Expr) (t : MonoTy) : Prop :=
  ∃ r c' ρ, Infers Γ c e r c' ∧ ρ.Extends θ c c' ∧ Solves ρ r.constraints ∧ r.type.inst ρ = t

/-- Runs are deterministic. -/
theorem Infers.unique {Γ : Env Empty} {c c' d' : Int} {e : Expr} {r q : Typed Empty}
    (h : Infers Γ c e r c') (h' : Infers Γ c e q d') : r = q ∧ c' = d' := by
  rw [Infers, h] at h'
  cases h'
  exact ⟨rfl, rfl⟩

/-- Every type to which the value of a local definition can be extended is an instance of
what the definition quantifies, relative to any one such extension. -/
theorem Realized.mem_instances {Γ : Env Empty} {c c₁ : Int} {θ ρ : Assignment} {value : Expr}
    {v : Typed Empty} {s : Subst Empty} {t : MonoTy} (h : Realized Γ c θ value t)
    (hΓ : Γ.Apart c) (hv : Infers Γ c value v c₁)
    (hs : Constraint.solve v.constraints = .ok s) (hext : ρ.Extends θ c c₁)
    (hρ : Solves ρ v.constraints) :
    t ∈ ((v.type.apply s).generalize (Γ.apply s)).instances ρ := by
  obtain ⟨v', c₁', π, hv', hext', hπ, htype⟩ := h
  obtain ⟨rfl, rfl⟩ := hv.unique hv'
  have hgeneral := Constraint.mostGeneral_of_solve hs
  refine ⟨π, ?_⟩
  rw [← htype, ← (hgeneral.absorbed hπ).inst_apply]
  refine Ty.inst_congr fun a ha => ?_
  by_cases hbound : a ∈ ((v.type.apply s).generalize (Γ.apply s)).bound
  · exact Assignment.overlay_of_mem hbound
  · -- what is not quantified is free in the solved environment, where solutions agree
    have hfree : a ∈ (Γ.apply s).freeVars := by
      by_contra hfree
      exact hbound (Ty.mem_bound_generalize.2 ⟨ha, hfree⟩)
    rw [Assignment.overlay_of_not_mem hbound]
    refine Env.eq_of_mem_freeVars_apply hs hπ hρ (fun d hd => ?_) hfree
    rw [hext d (hΓ.free hd _), hext' d (hΓ.free hd _)]

/-- The elements of a list extend an assignment one after the other. -/
theorem realized_elements {Γ : Env Empty} {G : String → Set MonoTy} {element t : MonoTy}
    {es : List Expr}
    (ih : ∀ e ∈ es, ∀ {c θ}, Γ.Apart c → (∀ x, G x ⊆ Γ.uses θ x) → Realized Γ c θ e t)
    {c : Int} {θ : Assignment} (hΓ : Γ.Apart c) (huses : ∀ x, G x ⊆ Γ.uses θ x)
    (helement : ∀ a ∈ element.freeVars, ∀ d, ¬ Minted c d a) (ht : element.inst θ = t) :
    ∃ C c' ρ, InfersAll Γ c element es C c' ∧ ρ.Extends θ c c' ∧ Solves ρ C := by
  induction es generalizing c θ with
  | nil => exact ⟨[], c, θ, infersAll_nil.2 ⟨rfl, rfl⟩, .refl θ c c, solves_nil θ⟩
  | cons e es ihes =>
      obtain ⟨r, c₁, ρ, hrun, hext, hsolves, htype⟩ := ih e List.mem_cons_self hΓ huses
      have hle := hrun.mentions.le
      have hρ : element.inst ρ = t := by
        rw [← ht]
        exact Ty.inst_congr fun a ha => hext a (helement a ha c₁)
      obtain ⟨C, c₂, π, hrest, hext', hsolves'⟩ :=
        ihes (fun e he => ih e (List.mem_cons_of_mem _ he)) (hΓ.mono hle)
          (hext.uses_eq hΓ ▸ huses) (fun a ha d hnew => helement a ha d (hnew.mono hle le_rfl)) hρ
      have hle' := (hrest.mentions fun _ _ => Infers.mentions).1
      have hπ : element.inst π = t := by
        rw [← hρ]
        exact Ty.inst_congr fun a ha =>
          hext' a fun hnew => helement a ha c₂ (hnew.mono hle le_rfl)
      refine ⟨_, c₂, π, infersAll_cons.2 ⟨r, c₁, C, hrun, hrest, rfl⟩,
        hext.trans hext' hle hle', ?_⟩
      rw [solves_append, solves_cons]
      refine ⟨hext'.solves hrun.mentions hΓ hsolves, ?_, hsolves'⟩
      rw [hπ, hext'.inst_type hrun.mentions hΓ, htype]

/-- A typing whose uses an environment allows under an assignment extends the assignment to
a solution of a run in this environment. -/
theorem TypedBy.realized {fixable : Expr → MonoTy → Prop} {G : String → Set MonoTy} {e : Expr}
    {t : MonoTy} (h : TypedBy fixable G e t) {Γ : Env Empty} {c : Int} {θ : Assignment}
    (hΓ : Γ.Apart c) (huses : ∀ x, G x ⊆ Γ.uses θ x) : Realized Γ c θ e t := by
  induction h generalizing Γ c θ with
  | int => exact ⟨_, c, θ, infers_int.2 ⟨rfl, rfl⟩, .refl θ c c, solves_nil θ, rfl⟩
  | bool => exact ⟨_, c, θ, infers_bool.2 ⟨rfl, rfl⟩, .refl θ c c, solves_nil θ, rfl⟩
  | @var G x t ht =>
      obtain ⟨σ, hx, hmem⟩ := huses x ht
      obtain ⟨u, c', hrun, hinst⟩ := σ.instantiates_instantiate c
      obtain ⟨ρ, hext, htype⟩ := hinst.complete θ t hmem
        fun a ha => hΓ.free (Env.mem_freeVars_of_get? hx ha) c'
      exact ⟨_, c', ρ, infers_var.2 ⟨σ, u, hx, hrun, rfl⟩, hext, solves_nil ρ, htype⟩
  | @prim G p t ht =>
      obtain ⟨u, c', hrun, hinst⟩ := p.signature.instantiates_instantiate c
      rw [Scheme.instance_iff, p.signature_closed.instances_eq _ θ] at ht
      obtain ⟨ρ, hext, htype⟩ := hinst.complete θ t ht
        fun a ha => absurd ha (p.signature_closed a)
      exact ⟨_, c', ρ, infers_prim.2 ⟨u, hrun, rfl⟩, hext, solves_nil ρ, htype⟩
  | @lam G x body t u _ ih =>
      -- the parameter's variable takes the parameter's type
      let θ₁ : Assignment := Function.update θ (typeVarName (c + 1)) t
      have hext₁ : θ₁.Extends θ c (c + 1) := .update θ c t
      have hparameter : θ₁ (typeVarName (c + 1)) = t := Function.update_self ..
      have huses₁ : ∀ y, Function.update G x {t} y ⊆
          Env.uses (Γ.insert x (.mono (.var (typeVarName (c + 1))))) θ₁ y := by
        intro y
        rw [Env.uses_insert, Scheme.instances_mono, Ty.inst_var, hparameter, hext₁.uses_eq hΓ]
        exact update_subset_update huses Set.Subset.rfl y
      obtain ⟨r, c', ρ, hrun, hext, hsolves, htype⟩ := ih (hΓ.insertVar x) huses₁
      refine ⟨_, c', ρ, infers_lam.2 ⟨r, hrun, rfl⟩,
        hext₁.trans hext (by omega) hrun.mentions.le, hsolves, ?_⟩
      rw [Ty.inst_fn, Ty.inst_var, htype,
        hext _ ((minted_succ c).not_minted le_rfl), hparameter]
  | @app G f a t u _ _ ihf iha =>
      obtain ⟨rf, c₁, ρ₁, hf, hext₁, hsolvesf, htypef⟩ := ihf hΓ huses
      have hlef := hf.mentions.le
      obtain ⟨ra, c₂, ρ₂, ha, hext₂, hsolvesa, htypea⟩ :=
        iha (hΓ.mono hlef) (hext₁.uses_eq hΓ ▸ huses)
      have hlea := ha.mentions.le
      let π : Assignment := Function.update ρ₂ (typeVarName (c₂ + 1)) u
      have hext₃ : π.Extends ρ₂ c₂ (c₂ + 1) := .update ρ₂ c₂ u
      have hresult : π (typeVarName (c₂ + 1)) = u := Function.update_self ..
      have hlater : π.Extends ρ₁ c₁ (c₂ + 1) := hext₂.trans hext₃ hlea (by omega)
      refine ⟨_, c₂ + 1, π, infers_app.2 ⟨rf, c₁, ra, c₂, hf, ha, rfl, rfl⟩,
        hext₁.trans hlater hlef (by omega), ?_, hresult⟩
      simp only [solves_append, solves_cons, solves_nil, and_true, Ty.inst_fn, Ty.inst_var]
      refine ⟨⟨hlater.solves hf.mentions hΓ hsolvesf,
        hext₃.solves ha.mentions (hΓ.mono hlef) hsolvesa⟩, ?_⟩
      rw [hlater.inst_type hf.mentions hΓ, hext₃.inst_type ha.mentions (hΓ.mono hlef), htypef,
        htypea, hresult]
  | @letIn G x value body S u hnonempty _ _ ihv ihb =>
      obtain ⟨t₀, ht₀⟩ := hnonempty
      obtain ⟨v, c₁, ρ, hv, hext, hsolves, -⟩ := ihv t₀ ht₀ hΓ huses
      obtain ⟨s, hs, hgeneral⟩ := Constraint.exists_solve_of_solves hsolves
      have hvT := hv.mentions
      have hinstances : S ⊆ ((v.type.apply s).generalize (Γ.apply s)).instances ρ :=
        fun t ht => (ihv t ht hΓ huses).mem_instances hΓ hv hs hext hsolves
      have huses' : ∀ y, Function.update G x S y ⊆ (Γ.bindSolved s x v.type).uses ρ y := by
        intro y
        rw [Env.bindSolved, Env.uses_insert,
          hΓ.uses_apply hvT hs fun a _ => hgeneral.absorbed hsolves a, hext.uses_eq hΓ]
        exact update_subset_update huses hinstances y
      obtain ⟨b, c', π, hb, hext', hsolvesb, htype⟩ :=
        ihb (hΓ.bindSolved hvT hs x) huses'
      refine ⟨_, c', π, infers_letIn.2 ⟨v, c₁, s, b, hv, hs, hb, rfl⟩,
        hext.trans hext' hvT.le hb.mentions.le, ?_, htype⟩
      exact solves_append.2 ⟨hext'.solves hvT hΓ hsolves, hsolvesb⟩
  | @ifThenElse G test onTrue onFalse t _ _ _ iht iha ihb =>
      obtain ⟨rt, c₁, ρ₁, ht, hext₁, hsolvest, htypet⟩ := iht hΓ huses
      have hΓ₁ := hΓ.mono ht.mentions.le
      have huses₁ := hext₁.uses_eq hΓ ▸ huses
      obtain ⟨ra, c₂, ρ₂, ha, hext₂, hsolvesa, htypea⟩ := iha hΓ₁ huses₁
      have hΓ₂ := hΓ₁.mono ha.mentions.le
      obtain ⟨rb, c₃, π, hb, hext₃, hsolvesb, htypeb⟩ :=
        ihb hΓ₂ (hext₂.uses_eq hΓ₁ ▸ huses₁)
      have hlater : π.Extends ρ₁ c₁ c₃ := hext₂.trans hext₃ ha.mentions.le hb.mentions.le
      have htype : ra.type.inst π = t := by rw [hext₃.inst_type ha.mentions hΓ₁, htypea]
      refine ⟨_, c₃, π, infers_ifThenElse.2 ⟨rt, c₁, ra, c₂, rb, ht, ha, hb, rfl⟩,
        hext₁.trans hlater ht.mentions.le (le_trans ha.mentions.le hb.mentions.le), ?_, htype⟩
      simp only [solves_append, solves_cons, solves_nil, and_true]
      refine ⟨⟨⟨hlater.solves ht.mentions hΓ hsolvest, hext₃.solves ha.mentions hΓ₁ hsolvesa⟩,
        hsolvesb⟩, ?_, ?_⟩
      · rw [hlater.inst_type ht.mentions hΓ, htypet]
        rfl
      · rw [htype, htypeb]
  | @fix G body t _ _ ih =>
      obtain ⟨r, c₁, ρ, hrun, hext, hsolves, htype⟩ := ih hΓ huses
      let π : Assignment := Function.update ρ (typeVarName (c₁ + 1)) t
      have hext₁ : π.Extends ρ c₁ (c₁ + 1) := .update ρ c₁ t
      have hresult : π (typeVarName (c₁ + 1)) = t := Function.update_self ..
      refine ⟨_, c₁ + 1, π, infers_fix.2 ⟨r, c₁, hrun, rfl, rfl⟩,
        hext.trans hext₁ hrun.mentions.le (by omega), ?_, hresult⟩
      simp only [solves_append, solves_cons, solves_nil, and_true, Ty.inst_fn, Ty.inst_var]
      refine ⟨hext₁.solves hrun.mentions hΓ hsolves, ?_⟩
      rw [hext₁.inst_type hrun.mentions hΓ, htype, hresult]
  | @list G elements t _ ih =>
      -- the list's variable comes first, then that of its elements
      let θ₁ : Assignment := Function.update θ (typeVarName (c + 1)) (.list t)
      let θ₂ : Assignment := Function.update θ₁ (typeVarName (c + 1 + 1)) t
      have hext₁ : θ₁.Extends θ c (c + 1) := .update θ c (.list t)
      have hext₂ : θ₂.Extends θ₁ (c + 1) (c + 1 + 1) := .update θ₁ (c + 1) t
      have hext : θ₂.Extends θ c (c + 1 + 1) := hext₁.trans hext₂ (by omega) (by omega)
      have helement : θ₂ (typeVarName (c + 1 + 1)) = t := Function.update_self ..
      have hwhole : θ₂ (typeVarName (c + 1)) = .list t := by
        rw [hext₂ _ ((minted_succ c).not_minted le_rfl)]
        exact Function.update_self ..
      have hnew : ∀ a ∈ (Ty.var (typeVarName (c + 1 + 1)) : MonoTy).freeVars,
          ∀ d, ¬ Minted (c + 1 + 1) d a := by
        intro a ha d
        rw [Ty.mem_freeVars_var] at ha
        exact ha ▸ (minted_succ (c + 1)).not_minted le_rfl
      have huses₂ : ∀ x, G x ⊆ Γ.uses θ₂ x := hext.uses_eq hΓ ▸ huses
      obtain ⟨C, c', π, hrun, hext', hsolves⟩ :=
        realized_elements (fun e he {_ _} => ih e he) (hΓ.mono (by omega)) huses₂ hnew helement
      have hle := (hrun.mentions fun _ _ => Infers.mentions).1
      have hwhole' : π (typeVarName (c + 1)) = .list t := by
        rw [hext' _ ((minted_succ c).not_minted (by omega)), hwhole]
      have helement' : π (typeVarName (c + 1 + 1)) = t := by
        rw [hext' _ ((minted_succ (c + 1)).not_minted le_rfl), helement]
      refine ⟨_, c', π, infers_list.2 ⟨C, hrun, rfl⟩, hext.trans hext' (by omega) hle, ?_,
        hwhole'⟩
      simp only [solves_append, solves_cons, solves_nil, and_true, Ty.inst_list, Ty.inst_var]
      exact ⟨hsolves, by rw [hwhole', helement']⟩

/-- An expression with a type by the rules gets a scheme of which the type is an instance. -/
theorem HasType.exists_scheme {Γ : Env Empty} {e : Expr} {t : MonoTy} (hΓ : Γ.Closed)
    (h : HasType Γ e t) : ∃ σ, e.scheme Γ = .ok σ ∧ σ.Instance t := by
  have htyped : TypedBy (fun _ _ => True) (Γ.uses Ty.var) e t := h.typedBy fun _ _ _ h => h
  obtain ⟨r, c, ρ, hrun, -, hsolves, htype⟩ :=
    htyped.realized (hΓ.apart 0) fun x => Set.Subset.rfl
  obtain ⟨s, hs, hgeneral⟩ := Constraint.exists_solve_of_solves hsolves
  obtain ⟨σ, hclose, -, hinstances⟩ := (r.type.apply s).exists_closeOver
  have hfinish : r.finish = .ok ⟨r.constraints, s, r.type.apply s, σ⟩ :=
    Typed.finish_eq_ok.2 ⟨s, σ, hs, hclose, rfl⟩
  refine ⟨σ, scheme_eq_ok.2 ⟨_, inference_eq_ok.2 ⟨r, c, hrun, hfinish⟩, rfl⟩, ?_⟩
  refine (hinstances t).2 ⟨ρ, ?_⟩
  rw [(hgeneral.absorbed hsolves).inst_apply, htype]

/-- The instances of the scheme of an expression are just its types. -/
theorem instance_iff_hasType {Γ : Env Empty} {e : Expr} {σ : Scheme Empty} (hΓ : Γ.Closed)
    (h : e.scheme Γ = .ok σ) {t : MonoTy} : σ.Instance t ↔ HasType Γ e t := by
  refine ⟨hasType_of_scheme hΓ h, fun ht => ?_⟩
  obtain ⟨σ', hσ', ht⟩ := HasType.exists_scheme hΓ ht
  rw [h] at hσ'
  cases hσ'
  exact ht

/-- Inference is complete, and its answer is principal: an expression with a type by the rules
gets a scheme of which the type is an instance, and the instances of the scheme are just the types
of the expression. -/
theorem scheme_complete {Γ : Env Empty} {e : Expr} {t : MonoTy} (hΓ : Γ.Closed)
    (h : HasType Γ e t) :
    ∃ σ, e.scheme Γ = .ok σ ∧ σ.Instance t ∧ ∀ u, σ.Instance u ↔ HasType Γ e u := by
  obtain ⟨σ, hσ, ht⟩ := HasType.exists_scheme hΓ h
  exact ⟨σ, hσ, ht, fun _ => instance_iff_hasType hΓ hσ⟩

/-- A typing by the rules under a parameter, in which a local definition quantifies one
variable, and the scheme that inference answers for it. -/
theorem scheme_complete_tagTwice :
    HasType withIdentity tagTwice (.fn .bool (.pair (.pair .bool .int) (.pair .bool .bool))) ∧
      tagTwice.scheme withIdentity = .ok tagTwiceScheme ∧
      tagTwiceScheme.Instance (.fn .bool (.pair (.pair .bool .int) (.pair .bool .bool))) ∧
      ∀ u, tagTwiceScheme.Instance u ↔ HasType withIdentity tagTwice u := by
  have hpair : ∀ t u : MonoTy, Primitive.pair.signature.Instance (.fn t (.fn u (.pair t u))) :=
    fun t u => ⟨.ofList [("a", t), ("b", u)], fun _ ha => ha, rfl⟩
  have hmono : ∀ t : MonoTy, (Scheme.mono t).Instance t :=
    fun t => ⟨∅, fun _ ha => ha, Ty.apply_empty t⟩
  have hid : Scheme.Instance ⟨["a"], .fn (.var "a") (.var "a")⟩ (.fn .bool .bool) :=
    ⟨.ofList [("a", .bool)], fun _ ha => ha, rfl⟩
  have htag : ∀ t : MonoTy, Scheme.Instance ⟨["b"], .fn (.var "b") (.pair .bool (.var "b"))⟩
      (.fn t (.pair .bool t)) :=
    fun t => ⟨.ofList [("b", t)], fun _ ha => ha, rfl⟩
  have htyped : HasType withIdentity tagTwice
      (.fn .bool (.pair (.pair .bool .int) (.pair .bool .bool))) := by
    refine .lam (.letIn (t := .fn (.var "b") (.pair .bool (.var "b"))) ?_ ?_ (.app (.app
      (.prim (hpair _ _)) (.app (.var rfl (htag .int)) .int))
      (.app (.var rfl (htag .bool)) (.var rfl (hmono _)))))
    · exact .lam (.app (.app (.prim (hpair _ _))
        (.app (.var rfl hid) (.var rfl (hmono _)))) (.var rfl (hmono _)))
    · decide
  obtain ⟨σ, hσ, hinstance, hprincipal⟩ := scheme_complete closed_withIdentity htyped
  rw [scheme_tagTwice] at hσ
  cases hσ
  exact ⟨htyped, scheme_tagTwice, hinstance, hprincipal⟩

end Expr

end LetPoly
