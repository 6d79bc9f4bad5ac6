import LetPoly.Proofs.AlphaEquivalence
import LetPoly.Proofs.Inference.Calls
import LetPoly.Proofs.OrderedMaps

/-!
# Names and inference

Inference sees the names of an expression only through its environment.  So it gives the same
outcome for two expressions that are built in the same way, in two environments that give
names which stand for each other the same schemes.  The outcome is the same to the letter:
type, constraints, counter and error.

What needs an argument is the generalization of a local definition, which looks at the free
variables of the whole environment, names included that the value does not use.  Such a name
may hold a variable of the value's type only if a name that the value does use holds it too,
since the value was inferred from these alone, and all that was made on the way is apart from
the environment.

Main results:

- Theorem {lit}`Env.Agrees.generalize_eq`: names that a value does not use have no influence on
  the generalization of its type.
- Theorem {lit}`Expr.SameUpTo.run_infer_eq`: expressions that are the same up to names have the
  same runs.
- Theorem {lit}`Expr.infer_alphaEq`: renaming bound names does not change inference.
- Theorem {lit}`Expr.infer_depends_on_freeVars`: inference depends on the names that an expression
  uses and does not bind.
-/

namespace LetPoly

/-! ## Environments that agree -/

namespace Env

/-- Environments agree when they give names that stand for each other the same scheme, or none
to a name that stands for itself. -/
structure Agrees (R : String → String → Prop) (Γ Δ : Env Empty) : Prop where
  get?_eq : ∀ {x y}, R x y → Γ.get? x = Δ.get? y
  eq_of_unbound : ∀ {x y}, R x y → Γ.get? x = none → x = y

namespace Agrees

variable {R : String → String → Prop} {Γ Δ : Env Empty}

theorem symm (h : Agrees R Γ Δ) : Agrees (fun y x => R x y) Δ Γ where
  get?_eq hxy := (h.get?_eq hxy).symm
  eq_of_unbound hxy hx := (h.eq_of_unbound hxy ((h.get?_eq hxy).trans hx)).symm

/-- Binders that get the same scheme stand for each other. -/
theorem insert (h : Agrees R Γ Δ) (x y : String) (σ : Scheme Empty) :
    Agrees (UnderBinders R x y) (Γ.insert x σ) (Δ.insert y σ) := by
  constructor
  · rintro a b (⟨rfl, rfl⟩ | ⟨ha, hb, hab⟩)
    · rw [Bindings.get?_insert, Bindings.get?_insert, if_pos rfl, if_pos rfl]
    · rw [Bindings.get?_insert, Bindings.get?_insert, if_neg ha, if_neg hb, h.get?_eq hab]
  · rintro a b (⟨rfl, rfl⟩ | ⟨ha, hb, hab⟩) hunbound
    · rw [Bindings.get?_insert, if_pos rfl] at hunbound
      cases hunbound
    · rw [Bindings.get?_insert, if_neg ha] at hunbound
      exact h.eq_of_unbound hab hunbound

theorem apply (h : Agrees R Γ Δ) (s : Subst Empty) : Agrees R (Γ.apply s) (Δ.apply s) where
  get?_eq hxy := by rw [get?_apply, get?_apply, h.get?_eq hxy]
  eq_of_unbound hxy hx := by
    rw [get?_apply, Option.map_eq_none_iff] at hx
    exact h.eq_of_unbound hxy hx

end Agrees

section Linked

open Classical in
/-- The part of an environment whose names stand for another name. -/
noncomputable def linked (R : String → String → Prop) (Γ : Env Empty) : Env Empty :=
  Γ.only fun x => ∃ y, R x y

variable {R : String → String → Prop} {Γ Δ : Env Empty}

theorem get?_linked {x y : String} (h : R x y) : (Γ.linked R).get? x = Γ.get? x := by
  rw [linked, Bindings.get?_only, if_pos ⟨y, h⟩]

theorem get?_of_linked {x : String} {σ : Scheme Empty} (h : (Γ.linked R).get? x = some σ) :
    Γ.get? x = some σ ∧ ∃ y, R x y := by
  rw [linked, Bindings.get?_only] at h
  split_ifs at h with hx
  exact ⟨h, hx⟩

theorem mem_freeVars_of_linked {a : String} (h : a ∈ (Γ.linked R).freeVars) :
    a ∈ Γ.freeVars := by
  obtain ⟨x, σ, hx, ha⟩ := mem_freeVars.1 h
  exact mem_freeVars_of_get? (get?_of_linked hx).1 ha

/-- A part of an environment agrees with all that the environment agrees with. -/
theorem Agrees.linked (h : Agrees R Γ Δ) : Agrees R (Γ.linked R) Δ where
  get?_eq hxy := (get?_linked hxy).trans (h.get?_eq hxy)
  eq_of_unbound hxy hx := h.eq_of_unbound hxy ((get?_linked hxy).symm.trans hx)

/-- A part of an environment is apart from what the environment is apart from. -/
theorem Apart.linked {c : Int} (h : Γ.Apart c) (R : String → String → Prop) :
    (Γ.linked R).Apart c where
  free ha := h.free (mem_freeVars_of_linked ha)
  bound hx := (h.bound (get?_of_linked hx).1).imp_right fun hbound a ha =>
    ⟨fun hfree => (hbound a ha).1 (mem_freeVars_of_linked hfree), (hbound a ha).2⟩

/-- What is free in the solved linked part is free in every solved environment that agrees. -/
theorem Agrees.mem_freeVars_apply (h : Agrees R Γ Δ) {s : Subst Empty} {a : String}
    (ha : a ∈ ((Γ.linked R).apply s).freeVars) : a ∈ (Δ.apply s).freeVars := by
  obtain ⟨x, σ, hx, haσ⟩ := mem_freeVars.1 ha
  rw [get?_apply, Option.map_eq_some_iff] at hx
  obtain ⟨τ, hτ, rfl⟩ := hx
  obtain ⟨hτ, y, hxy⟩ := get?_of_linked hτ
  have hy : (Δ.apply s).get? y = some (τ.apply s) := by
    rw [get?_apply, ← h.get?_eq hxy, hτ, Option.map_some]
  exact mem_freeVars_of_get? hy haσ

variable {c c₁ : Int} {v : Typed Empty} {s : Subst Empty}

/-- A variable of a value's type is free in the solved environment only because of a name from
which the value was inferred. -/
theorem Apart.mem_freeVars_linked (hΓ : Γ.Apart c) (hv : Expr.Tracked (Γ.linked R) c v c₁)
    (hs : Constraint.solve v.constraints = .ok s) {b : String}
    (hb : b ∈ (v.type.apply s).freeVars) (hfree : b ∈ (Γ.apply s).freeVars) :
    b ∈ ((Γ.linked R).apply s).freeVars := by
  have hresolved := (Constraint.mostGeneral_of_solve hs).resolved
  -- what is free in the environment was not made for the value
  have hold : ∀ {d}, d ∈ Γ.freeVars → (Γ.linked R).Reaches c c₁ d → d ∈ (Γ.linked R).freeVars :=
    fun hd hreach => hreach.resolve_right (hΓ.free hd c₁)
  obtain ⟨d, hd, hbd⟩ := exists_of_mem_freeVars_apply hfree
  cases hget : s.get? d with
  | some t =>
      have hreach := hv.reaches (Or.inr (hresolved.bound_mem hget))
      exact (hΓ.linked R).mem_freeVars_apply hv hs (hold hd hreach) hbd
  | none =>
      have himage := Subst.image_of_get?_eq_none hget
      obtain rfl : b = d := by rwa [himage, Ty.mem_freeVars_var] at hbd
      rw [Ty.apply_eq_inst, Ty.mem_freeVars_inst] at hb
      obtain ⟨k, hk, hbk⟩ := hb
      have hreach := Apart.reaches_image hv hs (hv.reaches (Or.inl hk)) hbk
      exact (hΓ.linked R).mem_freeVars_apply hv hs (hold hd hreach) hbd

/-- Names from which a value was not inferred have no influence on the generalization of its
type. -/
theorem Agrees.generalize_eq (h : Agrees R Γ Δ) (hΓ : Γ.Apart c) (hΔ : Δ.Apart c)
    (hvΓ : Expr.Tracked (Γ.linked R) c v c₁)
    (hvΔ : Expr.Tracked (Δ.linked fun y x => R x y) c v c₁)
    (hs : Constraint.solve v.constraints = .ok s) :
    (v.type.apply s).generalize (Γ.apply s) = (v.type.apply s).generalize (Δ.apply s) := by
  refine Ty.generalize_congr fun b hb => ⟨fun hfree => ?_, fun hfree => ?_⟩
  · exact h.mem_freeVars_apply (hΓ.mem_freeVars_linked hvΓ hs hb hfree)
  · exact h.symm.mem_freeVars_apply (hΔ.mem_freeVars_linked hvΔ hs hb hfree)

/-- Local definitions of the same value keep environments in agreement. -/
theorem Agrees.bindSolved (h : Agrees R Γ Δ) (hΓ : Γ.Apart c) (hΔ : Δ.Apart c)
    (hvΓ : Expr.Tracked (Γ.linked R) c v c₁)
    (hvΔ : Expr.Tracked (Δ.linked fun y x => R x y) c v c₁)
    (hs : Constraint.solve v.constraints = .ok s) (x y : String) :
    Agrees (UnderBinders R x y) (Γ.bindSolved s x v.type) (Δ.bindSolved s y v.type) := by
  rw [Env.bindSolved, Env.bindSolved, h.generalize_eq hΓ hΔ hvΓ hvΔ hs]
  exact (h.apply s).insert x y _

end Linked

end Env

/-! ## Runs on expressions that are the same up to names -/

namespace Expr

-- the equations that the proofs below rewrite with
theorem run_inferElements_eq {Γ Δ : Env Empty} {c : Int} {es es' : List Expr}
    (hlength : es.length = es'.length)
    (hes : ∀ (i : Nat) e e', es[i]? = some e → es'[i]? = some e' → ∀ c₁, c ≤ c₁ →
      (e.infer Γ).run c₁ = (e'.infer Δ).run c₁) (element : MonoTy) :
    (inferElements Γ element es).run c = (inferElements Δ element es').run c := by
  induction es generalizing es' c with
  | nil =>
      obtain rfl : es' = [] := List.length_eq_zero_iff.1 hlength.symm
      rw [inferElements, inferElements]
  | cons e es ih =>
      cases es' with
      | nil => cases hlength
      | cons e' es' =>
          rw [inferElements, inferElements]
          refine Fresh.run_bind_congr (hes 0 e e' rfl rfl c le_rfl) fun t c₁ ht => ?_
          have hle : c ≤ c₁ := (Infers.mentions ht).le
          refine Fresh.run_bind_congr (ih (Nat.succ.inj hlength) ?_) fun _ _ _ => rfl
          intro i d d' hd hd' c₂ hc₂
          exact hes (i + 1) d d' hd hd' c₂ (le_trans hle hc₂)

/-- Expressions that are the same up to names have the same runs in environments that agree. -/
theorem SameUpTo.run_infer_eq {R : String → String → Prop} {e e' : Expr} (h : SameUpTo R e e')
    {Γ Δ : Env Empty} {c : Int} (hagree : Env.Agrees R Γ Δ) (hΓ : Γ.Apart c) (hΔ : Δ.Apart c) :
    (e.infer Γ).run c = (e'.infer Δ).run c := by
  induction h generalizing Γ Δ c with
  | @var R x y hxy =>
      rw [infer, infer, ← hagree.get?_eq hxy]
      cases hx : Γ.get? x with
      | some σ => rfl
      | none => rw [hagree.eq_of_unbound hxy hx]
  | int n => rw [infer, infer]
  | bool b => rw [infer, infer]
  | prim p => rw [infer, infer]
  | hole => rw [infer, infer]
  | lam _ ih =>
      rw [infer, infer]
      refine Fresh.run_bind_congr rfl fun a c₁ ha => ?_
      obtain ⟨rfl, rfl⟩ := Fresh.run_var_eq_ok.1 ha
      exact Fresh.run_bind_congr (ih (hagree.insert _ _ _) (hΓ.insertVar _) (hΔ.insertVar _))
        fun _ _ _ => rfl
  | app _ _ ihf iha =>
      rw [infer, infer]
      refine Fresh.run_bind_congr (ihf hagree hΓ hΔ) fun rf c₁ hf => ?_
      have hle : c ≤ c₁ := (Infers.mentions hf).le
      exact Fresh.run_bind_congr (iha hagree (hΓ.mono hle) (hΔ.mono hle)) fun _ _ _ => rfl
  | @letIn R x y value body value' body' _ _ ihv ihb =>
      rw [infer, infer]
      have hvalue := ihv hagree hΓ hΔ
      refine Fresh.run_bind_congr hvalue fun v c₁ hv => ?_
      -- the value is inferred from the names that stand for each other alone
      have hvΓ : Infers (Γ.linked R) c value v c₁ :=
        (ihv hagree.linked (hΓ.linked R) hΔ).trans hv
      have hvΔ : Infers (Δ.linked fun y x => R x y) c value' v c₁ :=
        (ihv hagree.symm.linked.symm hΓ (hΔ.linked _)).symm.trans (hvalue.trans hv)
      cases hs : Constraint.solve v.constraints with
      | error error =>
          rw [Typed.bindIn, Typed.bindIn, hs]
          rfl
      | ok s =>
          rw [Typed.bindIn_eq_ok.2 ⟨s, hs, rfl⟩, Typed.bindIn_eq_ok.2 ⟨s, hs, rfl⟩]
          have hbodies := ihb (hagree.bindSolved hΓ hΔ hvΓ.mentions hvΔ.mentions hs x y)
            (hΓ.bindSolved (Infers.mentions (hvalue.trans hv)) hs x)
            (hΔ.bindSolved (Infers.mentions hv) hs y)
          change (body.infer (Γ.bindSolved s x v.type) >>= _).run c₁ =
            (body'.infer (Δ.bindSolved s y v.type) >>= _).run c₁
          exact Fresh.run_bind_congr hbodies fun _ _ _ => rfl
  | ifThenElse _ _ _ iht iha ihb =>
      rw [infer, infer]
      refine Fresh.run_bind_congr (iht hagree hΓ hΔ) fun t c₁ ht => ?_
      have hle : c ≤ c₁ := (Infers.mentions ht).le
      refine Fresh.run_bind_congr (iha hagree (hΓ.mono hle) (hΔ.mono hle)) fun a c₂ ha => ?_
      have hle' : c ≤ c₂ := le_trans hle (Infers.mentions ha).le
      exact Fresh.run_bind_congr (ihb hagree (hΓ.mono hle') (hΔ.mono hle')) fun _ _ _ => rfl
  | fix _ ih =>
      rw [infer, infer]
      exact Fresh.run_bind_congr (ih hagree hΓ hΔ) fun _ _ _ => rfl
  | list hlength _ ih =>
      rw [infer, infer]
      refine Fresh.run_bind_congr rfl fun whole c₁ hwhole => ?_
      obtain ⟨rfl, rfl⟩ := Fresh.run_var_eq_ok.1 hwhole
      refine Fresh.run_bind_congr rfl fun element c₂ helement => ?_
      obtain ⟨rfl, rfl⟩ := Fresh.run_var_eq_ok.1 helement
      refine Fresh.run_bind_congr (run_inferElements_eq hlength ?_ _) fun _ _ _ => rfl
      intro i e e' he he' c₃ hc₃
      have hle₃ : c ≤ c₃ := by omega
      exact ih i e e' he he' hagree (hΓ.mono hle₃) (hΔ.mono hle₃)

/-! ## Renaming and redefinition -/

/-- Renaming bound names does not change inference.  In an environment of closed schemes and
from any count, alpha-equivalent expressions have the same type, the same constraints and the
same counter, or the same error. -/
theorem infer_alphaEq {e e' : Expr} (h : e.AlphaEq e') {Γ : Env Empty} (hΓ : Γ.Closed) (c : Int) :
    (e.infer Γ).runFrom c = (e'.infer Γ).runFrom c := by
  have hagree : Env.Agrees (· = ·) Γ Γ := by
    constructor
    · rintro x _ rfl
      rfl
    · rintro x y hxy _
      exact hxy
  rw [Fresh.runFrom, Fresh.runFrom, SameUpTo.run_infer_eq h hagree (hΓ.apart c) (hΓ.apart c)]

/-- A function whose parameter is hidden behind a local definition of the same name, which uses
it. -/
def shadowing : Expr :=
  .lam "x" (.letIn "x" (.lam "y" (.app (.app (.prim .pair) (.var "x")) (.var "y")))
    (.app (.var "x") (.app (.var "id") (.var "x"))))

/-- The same function with other names, where the parameter stays in scope. -/
def namedApart : Expr :=
  .lam "p" (.letIn "tag" (.lam "x" (.app (.app (.prim .pair) (.var "p")) (.var "x")))
    (.app (.var "tag") (.app (.var "id") (.var "tag"))))

theorem alphaEq_shadowing : shadowing.AlphaEq namedApart := by
  have hparameter : shadowing.AlphaEq (.lam "p" (.letIn "x"
      (.lam "y" (.app (.app (.prim .pair) (.var "p")) (.var "y")))
      (.app (.var "x") (.app (.var "id") (.var "x"))))) :=
    alphaEq_lam_rename (y := "p") (by decide)
  have hvalue : AlphaEq (.lam "y" (.app (.app (.prim .pair) (.var "p")) (.var "y")))
      (.lam "x" (.app (.app (.prim .pair) (.var "p")) (.var "x"))) :=
    alphaEq_lam_rename (y := "x") (by decide)
  refine alphaEq_equivalence.trans hparameter (AlphaEq.lam ?_ "p")
  refine alphaEq_equivalence.trans (hvalue.letIn (alphaEq_equivalence.refl _) "x") ?_
  exact alphaEq_letIn_rename (y := "tag") (by decide)

/-- In the scope of the local definition, one function has lost its parameter and the other one
still has it. -/
theorem infer_alphaEq_shadowing :
    shadowing.AlphaEq namedApart ∧ Env.Closed InferCall.clashing ∧
      (shadowing.infer InferCall.clashing).runFrom 0 =
        (namedApart.infer InferCall.clashing).runFrom 0 :=
  ⟨alphaEq_shadowing, InferCall.closed_clashing,
    infer_alphaEq alphaEq_shadowing InferCall.closed_clashing 0⟩

/-- Inference depends on the names that an expression uses and does not bind.  In environments
of closed schemes that give these names the same schemes, or none, it answers the same type,
constraints and counter, or the same error. -/
theorem infer_depends_on_freeVars {e : Expr} {Γ Δ : Env Empty} (hΓ : Γ.Closed) (hΔ : Δ.Closed)
    (h : ∀ x ∈ e.freeVars, Γ.get? x = Δ.get? x) (c : Int) :
    (e.infer Γ).runFrom c = (e.infer Δ).runFrom c := by
  have hself : SameUpTo (fun x y => x = y ∧ x ∈ e.freeVars) e e :=
    sameUpTo_self fun _ hx => ⟨rfl, hx⟩
  have hagree : Env.Agrees (fun x y => x = y ∧ x ∈ e.freeVars) Γ Δ := by
    constructor
    · rintro x _ ⟨rfl, hx⟩
      exact h x hx
    · rintro x y ⟨hxy, -⟩ _
      exact hxy
  rw [Fresh.runFrom, Fresh.runFrom, hself.run_infer_eq hagree (hΓ.apart c) (hΔ.apart c)]

/-- An environment with a definition in front that has the name of a local one. -/
def clashingBehindTag : Env Empty :=
  Bindings.insert (Bindings.insert ∅ "tag" ⟨["t2"], .list (.var "t2")⟩) "id"
    ⟨["t1"], .fn (.var "t1") (.var "t1")⟩

/-- A definition is added that an expression does not mention, under a name that it binds. -/
theorem infer_depends_on_freeVars_namedApart :
    Env.Closed InferCall.clashing ∧ Env.Closed clashingBehindTag ∧
      (∀ x ∈ namedApart.freeVars, InferCall.clashing.get? x = clashingBehindTag.get? x) ∧
      (namedApart.infer InferCall.clashing).runFrom 0 =
        (namedApart.infer clashingBehindTag).runFrom 0 := by
  have hclosed : Env.Closed clashingBehindTag :=
    (Env.closed_single (by decide) "tag").insert (Scheme.closed_iff.2 (by decide)) "id"
  have hsame : ∀ x ∈ namedApart.freeVars,
      InferCall.clashing.get? x = clashingBehindTag.get? x := by
    intro x hx
    obtain rfl : x = "id" := List.mem_singleton.1 hx
    rfl
  exact ⟨InferCall.closed_clashing, hclosed, hsame,
    infer_depends_on_freeVars InferCall.closed_clashing hclosed hsame 0⟩

end Expr

end LetPoly
