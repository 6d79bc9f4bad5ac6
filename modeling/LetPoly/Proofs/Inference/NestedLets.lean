import LetPoly.Proofs.Inference.Renaming
import LetPoly.Proofs.NormalForms
import LetPoly.Proofs.Unification.Parts
import Mathlib.Algebra.Group.Int.Defs
import Mathlib.GroupTheory.Perm.ViaEmbedding

/-!
# Definitions as nested local definitions

A program types its definitions one by one, each from the first number on, and keeps their
principal schemes.  The local definitions that it amounts to are typed in one run, with the
generalized types as they come and with the constraints of all values solved once more at
the end.  Both ways have the same outcome.

Main results:

- Theorem {lit}`Expr.infer_congr`: inference cannot tell apart schemes with the same fresh
  copies.
- Theorem {lit}`Expr.schemeFrom_letIn`: in a closed environment the constraints of a value
  play no part once they are solved.
- Theorem {lit}`Program.infer_iff_scheme_toLets`: a program is typed like its nested local
  definitions, failures included.
-/

namespace LetPoly

/-! ## Schemes that inference cannot tell apart -/

namespace Scheme

/-- Schemes that are the same, or closed and with the same fresh copies. -/
inductive Alike : Scheme Empty → Scheme Empty → Prop where
  | refl (σ : Scheme Empty) : Alike σ σ
  | closed {σ τ : Scheme Empty} (hσ : σ.Closed) (hτ : τ.Closed)
      (h : σ.instantiate = τ.instantiate) : Alike σ τ

/-- A substitution does not change a closed scheme. -/
theorem Closed.apply_eq {σ : Scheme Empty} (h : σ.Closed) (s : Subst Empty) :
    σ.apply s = σ := by
  have hbody : σ.body.apply (s.without σ.bound) = σ.body := by
    rw [Ty.apply_eq_inst]
    refine (Ty.inst_congr fun a ha => ?_).trans (Ty.inst_self _)
    refine Subst.image_of_get?_eq_none ?_
    rw [Bindings.get?_without, if_pos (closed_iff.1 h a ha)]
  rw [Scheme.apply, hbody]

namespace Alike

variable {σ τ : Scheme Empty} (h : Alike σ τ)

include h

/-- Schemes that are alike have the same fresh copies. -/
theorem instantiate_eq : σ.instantiate = τ.instantiate := by
  cases h with
  | refl => rfl
  | closed hσ hτ h => exact h

/-- Being alike goes both ways. -/
theorem symm : Alike τ σ := by
  cases h with
  | refl => exact .refl _
  | closed hσ hτ h => exact .closed hτ hσ h.symm

/-- Substitution keeps schemes alike. -/
theorem apply (s : Subst Empty) : Alike (σ.apply s) (τ.apply s) := by
  cases h with
  | refl => exact .refl _
  | closed hσ hτ h =>
      rw [hσ.apply_eq, hτ.apply_eq]
      exact .closed hσ hτ h

/-- Schemes that are alike have the same free variables. -/
theorem mem_freeVars {a : String} : a ∈ σ.freeVars ↔ a ∈ τ.freeVars := by
  cases h with
  | refl => rfl
  | closed hσ hτ h => exact iff_of_false (hσ a) (hτ a)

end Alike

end Scheme

namespace Env

/-- Environments with the same names and alike schemes. -/
def Alike (Γ Δ : Env Empty) : Prop :=
  ∀ x, Option.Rel Scheme.Alike (Γ.get? x) (Δ.get? x)

namespace Alike

variable {Γ Δ : Env Empty}

/-- An environment is like itself. -/
theorem refl (Γ : Env Empty) : Alike Γ Γ := by
  intro x
  cases Γ.get? x with
  | none => exact .none
  | some σ => exact .some (.refl σ)

/-- Environments stay alike when they are extended by schemes that are. -/
theorem insert (h : Alike Γ Δ) (x : String) {σ τ : Scheme Empty} (hστ : σ.Alike τ) :
    Alike (Γ.insert x σ) (Δ.insert x τ) := by
  intro y
  rw [Bindings.get?_insert, Bindings.get?_insert]
  split_ifs
  · exact .some hστ
  · exact h y

/-- For environments, being alike goes both ways. -/
theorem symm (h : Alike Γ Δ) : Alike Δ Γ := by
  intro x
  have hx := h x
  generalize Γ.get? x = o, Δ.get? x = o' at hx
  cases hx with
  | none => exact .none
  | some hστ => exact .some hστ.symm

/-- A name that one environment binds is bound by the other one. -/
theorem exists_of_get? (h : Alike Γ Δ) {x : String} {σ : Scheme Empty}
    (hx : Γ.get? x = some σ) : ∃ τ, Δ.get? x = some τ ∧ σ.Alike τ := by
  have hrel := h x
  rw [hx] at hrel
  generalize hy : Δ.get? x = o at hrel
  cases hrel with
  | some hστ => exact ⟨_, rfl, hστ⟩

/-- Substitution keeps environments alike. -/
theorem apply (h : Alike Γ Δ) (s : Subst Empty) : Alike (Γ.apply s) (Δ.apply s) := by
  intro x
  rw [get?_apply, get?_apply]
  have hx := h x
  generalize Γ.get? x = o, Δ.get? x = o' at hx ⊢
  cases hx with
  | none => exact .none
  | some hστ => exact .some (hστ.apply s)

/-- What is free in an environment is free in one that is alike. -/
theorem freeVars_subset (h : Alike Γ Δ) {a : String} (ha : a ∈ Γ.freeVars) :
    a ∈ Δ.freeVars := by
  obtain ⟨x, σ, hx, ha⟩ := Env.mem_freeVars.1 ha
  obtain ⟨τ, hy, hστ⟩ := h.exists_of_get? hx
  exact mem_freeVars_of_get? hy (hστ.mem_freeVars.1 ha)

/-- The same variables are quantified in environments that are alike. -/
theorem generalize_eq (h : Alike Γ Δ) (t : MonoTy) : t.generalize Γ = t.generalize Δ :=
  Ty.generalize_congr fun _ _ => ⟨h.freeVars_subset, h.symm.freeVars_subset⟩

/-- The body of a local definition is typed in environments that are alike. -/
theorem bindSolved (h : Alike Γ Δ) (s : Subst Empty) (x : String) (t : MonoTy) :
    Alike (Γ.bindSolved s x t) (Δ.bindSolved s x t) := by
  have happly := h.apply s
  rw [Env.bindSolved, Env.bindSolved, happly.generalize_eq]
  exact happly.insert x (.refl _)

end Alike

end Env

namespace Expr

-- the equations that the proofs below rewrite with
/-- List elements are inferred alike if each of them is. -/
theorem inferElements_congr {Γ Δ : Env Empty} {es : List Expr}
    (hes : ∀ e ∈ es, e.infer Γ = e.infer Δ) (element : MonoTy) :
    inferElements Γ element es = inferElements Δ element es := by
  induction es with
  | nil => rw [inferElements, inferElements]
  | cons e es ih =>
      rw [inferElements, inferElements, hes e List.mem_cons_self,
        ih fun e he => hes e (List.mem_cons_of_mem _ he)]

/-- Inference cannot tell alike schemes apart. -/
theorem infer_congr {Γ Δ : Env Empty} (h : Γ.Alike Δ) (e : Expr) : e.infer Γ = e.infer Δ := by
  induction e generalizing Γ Δ with
  | int n => rw [infer, infer]
  | bool b => rw [infer, infer]
  | prim p => rw [infer, infer]
  | hole => rw [infer, infer]
  | var x =>
      rw [infer, infer]
      have hx := h x
      generalize Γ.get? x = o, Δ.get? x = o' at hx ⊢
      cases hx with
      | none => rfl
      | some hστ => simp only [hστ.instantiate_eq]
  | lam x body ih =>
      rw [infer, infer]
      refine bind_congr fun a => ?_
      rw [ih (h.insert x (.refl (.mono a)))]
  | app function argument ihf iha => rw [infer, infer, ihf h, iha h]
  | letIn x value body ihv ihb =>
      rw [infer, infer, ihv h]
      refine bind_congr fun v => ?_
      rw [Typed.bindIn, Typed.bindIn]
      cases Constraint.solve v.constraints with
      | error error => rfl
      | ok s =>
          change body.infer (Γ.bindSolved s x v.type) >>= _ =
            body.infer (Δ.bindSolved s x v.type) >>= _
          rw [ihb (h.bindSolved s x v.type)]
  | ifThenElse test onTrue onFalse iht iha ihb => rw [infer, infer, iht h, iha h, ihb h]
  | fix body ih => rw [infer, infer, ih h]
  | list es ih =>
      rw [infer, infer]
      refine bind_congr fun whole => bind_congr fun element => ?_
      rw [inferElements_congr fun e he => ih e he h]

end Expr

/-! ## Inference from another number on in a closed environment -/

/-- The permutation of names that moves every numbered type variable by a distance. -/
noncomputable def shift (d : Int) : Equiv.Perm String :=
  (Equiv.addRight d).viaEmbedding ⟨typeVarName, fun _ _ => typeVarName_injective⟩

/-- Numbered names are shifted by adding to the number. -/
theorem shift_typeVarName (d number : Int) :
    shift d (typeVarName number) = typeVarName (number + d) :=
  Equiv.Perm.viaEmbedding_apply (Equiv.addRight d)
    ⟨typeVarName, fun _ _ => typeVarName_injective⟩ number

namespace Scheme

/-- A closed scheme stays closed when its variables are renamed. -/
theorem Closed.relabel {σ : Scheme Empty} (h : σ.Closed) (g : String → String) :
    (σ.relabel g).Closed := by
  rw [closed_iff]
  intro b hb
  obtain ⟨a, ha, rfl⟩ := Ty.mem_freeVars_relabel.1 hb
  exact List.mem_map_of_mem (closed_iff.1 h a ha)

/-- The quantified variables of a closed scheme have no names that matter. -/
theorem Closed.alike_relabel {σ : Scheme Empty} (h : σ.Closed) {g : String → String}
    (hg : Set.InjOn g {a | a ∈ σ.bound}) : σ.Alike (σ.relabel g) :=
  .closed h (h.relabel g) (h.instantiate_relabel hg).symm

end Scheme

/-- In a closed environment, a renaming changes bound names only. -/
theorem Env.Closed.alike_relabel {Γ : Env Empty} (h : Γ.Closed) (f : String ↪ String) :
    Γ.Alike (Γ.relabel f) := by
  intro x
  rw [get?_relabel]
  cases hx : Γ.get? x with
  | none => exact .none
  | some σ =>
      exact .some ((h x σ hx).alike_relabel f.injective.injOn)

/-- In a closed environment inference does the same from every number on. -/
theorem Expr.infer_shift {Γ : Env Empty} (h : Γ.Closed) (e : Expr) (d : Int) :
    Fresh.Mirrors (shift d) d (Typed.relabel (shift d)) (e.infer Γ) (e.infer Γ) := by
  have hmoved := infer_relabel (f := (shift d).toEmbedding) (shift_typeVarName d) e Γ
  rwa [← infer_congr (h.alike_relabel (shift d).toEmbedding)] at hmoved

/-! ## Constraints that play no part -/

/-- A solution leaves types alone that have no variables of the constraints. -/
theorem Subst.ResolvedIn.apply_eq {s : Subst Empty} {V : Set String} (h : s.ResolvedIn V)
    {t : MonoTy} (ht : ∀ a ∈ t.freeVars, a ∉ V) : t.apply s = t := by
  rw [Ty.apply_eq_inst]
  refine (Ty.inst_congr fun a ha => ?_).trans (Ty.inst_self t)
  refine image_of_get?_eq_none ?_
  cases hget : Bindings.get? s a with
  | none => rfl
  | some u => exact absurd (h.bound_mem hget) (ht a ha)

/-- The principal scheme of a type under its constraints. -/
def Typed.principal (v : Typed Empty) : Checked Empty (Scheme Empty) := do
  let s ← Constraint.solve v.constraints
  (v.type.apply s).closeOver

/-- Constraints that are solved on their own and share no variables with the rest play no
part. -/
theorem Typed.principal_append {C D : List (Constraint Empty)} {t : MonoTy} {s : Subst Empty}
    (hC : Constraint.solve C = .ok s)
    (hapart : ∀ a, Typed.Mentions ⟨t, D⟩ a → ¬ Constraint.MentionedIn C a) :
    Typed.principal ⟨t, C ++ D⟩ = Typed.principal ⟨t, D⟩ := by
  rw [principal, principal]
  simp only [Constraint.solve_append]
  cases hD : Constraint.solve D with
  | error error => rfl
  | ok u =>
      have hu := (Constraint.mostGeneral_of_solve hD).resolved
      have hs := (Constraint.mostGeneral_of_solve hC).resolved
      have hsame : C.map (fun c => c.apply u) = C := by
        refine (List.map_congr_left fun c hc => ?_).trans (List.map_id C)
        have hfree : ∀ a, c.Mentions a → ¬ Constraint.MentionedIn D a :=
          fun a ha hmem => hapart a (Or.inr hmem) ⟨c, hc, ha⟩
        have hleft : c.left.apply u = c.left := hu.apply_eq fun a ha => hfree a (Or.inl ha)
        have hright : c.right.apply u = c.right := hu.apply_eq fun a ha => hfree a (Or.inr ha)
        rw [Constraint.apply, hleft, hright]
        rfl
      have htype : t.apply (Subst.compose s u) = t.apply u := by
        rw [Ty.apply_compose]
        refine hs.apply_eq fun b hb => ?_
        rw [Ty.apply_eq_inst, Ty.mem_freeVars_inst] at hb
        obtain ⟨a, ha, hba⟩ := hb
        rcases hu.mem_image hba with ⟨rfl, -⟩ | ⟨hbD, -⟩
        · exact hapart b (Or.inl ha)
        · exact hapart b (Or.inr hbD)
      simp only [Bind.bind, Except.bind, Pure.pure, Except.pure, hsame, hC, htype]

/-! ## Closed environments -/

/-- Nothing stays free when a type is generalized at the outermost level. -/
theorem Scheme.closed_generalize_empty (t : MonoTy) : (t.generalize ∅).Closed := by
  rw [closed_iff, Ty.bound_generalize_empty]
  exact fun a ha => ha

namespace Env.Closed

variable {Γ : Env Empty} (h : Γ.Closed)

include h

/-- A local definition in a closed environment is generalized in full. -/
theorem bindSolved_eq (s : Subst Empty) (x : String) (t : MonoTy) :
    Γ.bindSolved s x t = Γ.insert x ((t.apply s).generalize ∅) := by
  have happly : Γ.apply s = Γ := by
    refine Bindings.ext_names (Bindings.names_mapValues _ _) fun y _ => ?_
    rw [get?_apply]
    cases hy : Γ.get? y with
    | none => rfl
    | some σ => exact congrArg some ((h y σ hy).apply_eq s)
  rw [bindSolved, happly, Ty.generalize_congr fun a _ =>
    iff_of_false (h.not_mem_freeVars a) (Env.closed_empty.not_mem_freeVars a)]

/-- A closed environment stays closed in the body of a local definition. -/
theorem bindSolved (s : Subst Empty) (x : String) (t : MonoTy) :
    (Γ.bindSolved s x t).Closed := by
  rw [h.bindSolved_eq]
  exact h.insert (Scheme.closed_generalize_empty _) x

end Env.Closed

namespace Expr

/-- The principal scheme of an expression, with type variables from a number on. -/
def schemeFrom (c : Int) (Γ : Env Empty) (e : Expr) : Checked Empty (Scheme Empty) := do
  let v ← ((e.infer Γ).runFrom c).1
  v.principal

/-- Inference starts with the first number. -/
theorem scheme_eq_schemeFrom (Γ : Env Empty) (e : Expr) : e.scheme Γ = e.schemeFrom 0 Γ := by
  rw [scheme, inference, schemeFrom]
  cases ((e.infer Γ).runFrom 0).1 with
  | error error => rfl
  | ok v =>
      change (v.finish >>= fun r => pure r.scheme) = v.principal
      rw [Typed.finish, Typed.principal]
      cases Constraint.solve v.constraints with
      | error error => rfl
      | ok s =>
          change ((v.type.apply s).closeOver >>= _) >>= _ = (v.type.apply s).closeOver
          cases (v.type.apply s).closeOver with
          | error error => rfl
          | ok σ => rfl

/-- In a closed environment the constraints of a value play no part once they are solved. -/
theorem schemeFrom_letIn {Γ : Env Empty} (hΓ : Γ.Closed) (c : Int) (x : String)
    (value body : Expr) :
    (letIn x value body).schemeFrom c Γ = (do
      let v ← ((value.infer Γ).runFrom c).1
      let s ← Constraint.solve v.constraints
      body.schemeFrom ((value.infer Γ).runFrom c).2 (Γ.bindSolved s x v.type)) := by
  rw [schemeFrom, Fresh.runFrom, Fresh.runFrom]
  cases hv : (value.infer Γ).run c with
  | error error c₁ =>
      have hrun : ((letIn x value body).infer Γ).run c = .error error c₁ := by
        rw [infer, EStateM.run_bind, hv]
      rw [hrun]
      rfl
  | ok v c₁ =>
      simp only [Bind.bind, Except.bind]
      cases hs : Constraint.solve v.constraints with
      | error error =>
          have hrun : ((letIn x value body).infer Γ).run c = .error error c₁ := by
            rw [infer, EStateM.run_bind, hv]
            simp only [Typed.bindIn, hs]
            rfl
          rw [hrun]
      | ok s =>
          have hrun : ((letIn x value body).infer Γ).run c =
              ((body.infer (Γ.bindSolved s x v.type)) >>= fun b =>
                pure ⟨b.type, v.constraints ++ b.constraints⟩).run c₁ := by
            rw [infer, EStateM.run_bind, hv]
            simp only [Typed.bindIn, hs]
            rfl
          simp only [hrun, schemeFrom, Fresh.runFrom, EStateM.run_bind]
          cases hb : (body.infer (Γ.bindSolved s x v.type)).run c₁ with
          | error error c₂ => rfl
          | ok b c₂ =>
              refine Typed.principal_append hs fun a hbody hvalue => ?_
              -- the value's variables were made before the body's
              have hold : Minted c c₁ a :=
                ((Infers.mentions hv).reaches (Or.inr hvalue)).resolve_left (hΓ.not_mem_freeVars a)
              have hnew : Minted c₁ c₂ a := ((Infers.mentions hb).reaches hbody).resolve_left
                ((hΓ.bindSolved s x v.type).not_mem_freeVars a)
              exact hold.not_minted le_rfl hnew

end Expr

/-! ## Programs -/

/-- A run that mirrors another one has its result and its counter. -/
theorem Fresh.Mirrors.runFrom_eq {α β : Type} {f : String → String} {d : Int} {g : α → β}
    {x : Fresh Empty α} {y : Fresh Empty β} (h : Mirrors f d g x y) (c : Int) :
    y.runFrom (c + d) = ((x.runFrom c).1.relabel f g, (x.runFrom c).2 + d) := by
  rw [runFrom, runFrom, h c]
  cases x.run c with
  | ok a c₁ => rfl
  | error error c₁ => rfl

/-- What is solved after a renaming is the renamed solution. -/
theorem Typed.principal_relabel (f : String ↪ String) (v : Typed Empty) :
    (v.relabel f).principal = v.principal.relabel f id := by
  rw [principal, principal, relabel, Constraint.solve_relabel]
  refine Checked.relabel_bind fun s => ?_
  obtain ⟨σ, hσ, -⟩ := (v.type.apply s).exists_closeOver
  rw [Ty.apply_relabel, Ty.closeOver_relabel, hσ]
  rfl

/-- A generalized type is like the principal scheme of the type, whatever its variables are
called. -/
theorem Ty.alike_of_closeOver {t : MonoTy} {σ : Scheme Empty} (h : t.closeOver = .ok σ)
    (f : String ↪ String) : σ.Closed ∧ σ.Alike ((t.relabel f).generalize ∅) := by
  obtain ⟨g, hinj, -, hclose⟩ := t.exists_closeOver_eq_relabel
  rw [hclose] at h
  cases h
  have hg : Set.InjOn g {a | a ∈ (t.generalize ∅).bound} := by
    rw [bound_generalize_empty]
    exact hinj
  have hclosed := Scheme.closed_generalize_empty t
  have hrename : (t.relabel f).generalize ∅ = (t.generalize ∅).relabel f :=
    t.generalize_relabel f ∅
  rw [hrename]
  refine ⟨hclosed.relabel g, .closed (hclosed.relabel g) (hclosed.relabel f) ?_⟩
  rw [hclosed.instantiate_relabel hg, hclosed.instantiate_relabel f.injective.injOn]

/-- From another number on, and in an environment that it cannot tell apart, inference does
the same with other variables. -/
theorem Expr.runFrom_infer_eq {Γ Δ : Env Empty} (hΓ : Γ.Closed) (h : Γ.Alike Δ) (c : Int)
    (e : Expr) :
    (e.infer Δ).runFrom c =
      (((e.infer Γ).runFrom 0).1.relabel (shift c) (Typed.relabel (shift c)),
        ((e.infer Γ).runFrom 0).2 + c) := by
  have hmoved := (e.infer_shift hΓ c).runFrom_eq 0
  rw [Int.zero_add] at hmoved
  rw [← infer_congr h, hmoved]

/-- Definitions and a body, typed one after the other, are typed like the nested local
definitions in an environment that inference cannot tell apart, from any number on. -/
theorem Program.exists_schemeFrom_toLets {Γ Δ : Env Empty} (hΓ : Γ.Closed) (hΔ : Δ.Closed)
    (h : Γ.Alike Δ) (c : Int) (definitions : List Definition) (body : Expr) :
    ∃ π : Equiv.Perm String,
      (Program.toLets ⟨definitions, body⟩).schemeFrom c Δ =
        (Definition.extend Γ definitions >>= body.scheme).relabel π id := by
  induction definitions generalizing Γ Δ c with
  | nil =>
      refine ⟨shift c, ?_⟩
      change body.schemeFrom c Δ = (body.scheme Γ).relabel (shift c) id
      rw [Expr.scheme_eq_schemeFrom, Expr.schemeFrom, Expr.schemeFrom, Expr.runFrom_infer_eq hΓ h]
      exact Checked.relabel_bind fun v => v.principal_relabel (shift c).toEmbedding
  | cons d rest ih =>
      change ∃ π : Equiv.Perm String,
        (Expr.letIn d.name d.value (Program.toLets ⟨rest, body⟩)).schemeFrom c Δ = _
      rw [Expr.schemeFrom_letIn hΔ, Expr.runFrom_infer_eq hΓ h, Definition.extend,
        Expr.scheme_eq_schemeFrom, Expr.schemeFrom]
      cases ((d.value.infer Γ).runFrom 0).1 with
      | error error => exact ⟨shift c, rfl⟩
      | ok v =>
          have hsolve : Constraint.solve (v.relabel (shift c)).constraints =
              (Constraint.solve v.constraints).relabel (shift c)
                (Subst.relabel (shift c).toEmbedding) :=
            Constraint.solve_relabel (shift c).toEmbedding v.constraints
          simp only [Checked.relabel, Typed.principal, Bind.bind, Except.bind, hsolve]
          cases Constraint.solve v.constraints with
          | error error => exact ⟨shift c, rfl⟩
          | ok s =>
              obtain ⟨σ, hclose, -⟩ := (v.type.apply s).exists_closeOver
              obtain ⟨hσ, halike⟩ := Ty.alike_of_closeOver hclose (shift c).toEmbedding
              rw [← Ty.apply_relabel] at halike
              have hnext := h.insert d.name halike
              rw [← hΔ.bindSolved_eq] at hnext
              simp only [hclose]
              exact ih (hΓ.insert hσ d.name) (hΔ.bindSolved _ _ _) hnext _

/-- The scheme of a program is the scheme of its body after its definitions. -/
theorem Program.map_snd_infer (program : Program) (Γ : Env Empty) :
    (program.infer Γ).map Prod.snd =
      Definition.extend Γ program.definitions >>= program.body.scheme := by
  rw [Program.infer]
  cases Definition.extend Γ program.definitions with
  | error error => rfl
  | ok Γ' =>
      change Except.map Prod.snd (program.body.scheme Γ' >>= _) = program.body.scheme Γ'
      cases program.body.scheme Γ' <;> rfl

/-- A program is typed like its nested local definitions: with the same scheme, or with the
same error up to a renaming of type variables. -/
theorem Program.infer_iff_scheme_toLets (program : Program) :
    (∀ σ : Scheme Empty,
      (∃ Γ, program.infer ∅ = .ok (Γ, σ)) ↔ program.toLets.scheme ∅ = .ok σ) ∧
    (∀ error : CheckError Empty, program.infer ∅ = .error error →
      ∃ π : Equiv.Perm String, program.toLets.scheme ∅ = .error (error.relabel π)) ∧
    ∀ error : CheckError Empty, program.toLets.scheme ∅ = .error error →
      ∃ π : Equiv.Perm String, program.infer ∅ = .error (error.relabel π) := by
  obtain ⟨π, hsame⟩ := Program.exists_schemeFrom_toLets Env.closed_empty Env.closed_empty
    (.refl ∅) 0 program.definitions program.body
  rw [← Expr.scheme_eq_schemeFrom, ← Program.map_snd_infer] at hsame
  change program.toLets.scheme ∅ = _ at hsame
  rw [hsame]
  cases program.infer (∅ : Env Empty) with
  | error error =>
      refine ⟨fun σ => ?_, ?_, ?_⟩
      · simp [Except.map, Checked.relabel]
      · rintro _ ⟨⟩
        exact ⟨π, rfl⟩
      · rintro _ ⟨⟩
        refine ⟨π.symm, ?_⟩
        rw [CheckError.relabel_relabel_of_leftInverse π.symm_apply_apply]
  | ok answer =>
      obtain ⟨Γ, σ⟩ := answer
      refine ⟨fun τ => ?_, nofun, nofun⟩
      simp [Except.map, Checked.relabel]

/-- A program that defines the identity. -/
def Program.afterIdentity (body : Expr) : Program where
  definitions := [⟨"id", .lam "x" (.var "x")⟩]
  body := body

/-- The definition is used at two types. -/
example :
    let program := Program.afterIdentity ((Expr.prim .pair).apps
      [.app (.var "id") (.int 1), .app (.var "id") (.bool true)])
    (program.infer (∅ : Env Empty)).toOption.map Prod.snd = some (.mono (.pair .int .bool)) ∧
      (program.toLets.scheme (∅ : Env Empty)).toOption = some (.mono (.pair .int .bool)) := by
  decide +kernel

/-- The infinite type of an error. -/
def CheckError.infinite? {α : Type} : Checked Empty α → Option (String × MonoTy)
  | .error (.rejected (.infinite a t)) => some (a, t)
  | _ => none

/-- A function that is applied to itself has no type.  As the body of a local definition, the
variables in the error have other numbers. -/
example :
    let program := Program.afterIdentity (.lam "y" (.app (.var "y") (.var "y")))
    CheckError.infinite? (program.infer (∅ : Env Empty)) =
        some ("t1", .fn (.var "t1") (.var "t2")) ∧
      CheckError.infinite? (program.toLets.scheme (∅ : Env Empty)) =
        some ("t2", .fn (.var "t2") (.var "t3")) := by
  decide +kernel

end LetPoly
