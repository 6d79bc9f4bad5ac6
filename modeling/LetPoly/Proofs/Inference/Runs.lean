import LetPoly.Infer
import LetPoly.Proofs.NumberedNames
import LetPoly.Proofs.Typing
import LetPoly.Proofs.Unification

/-!
# Runs of inference

What one successful run of inference does, form by form: a run on an expression is made of
runs on its parts, of fresh variables and of fresh copies of schemes.

Main results:

- Theorems {lit}`Expr.infers_app`, {lit}`Expr.infers_letIn` and their like: a run on an
  expression is made of runs on its parts.
- Theorem {lit}`Scheme.instantiates_instantiate`: a scheme is instantiated by a fresh copy
  whose instances are the scheme's.
- Theorem {lit}`Program.infer_eq_ok_iff`: a program is typed by its definitions, one after the
  other, and its body after them.
-/

namespace LetPoly

/-! ## Steps of the checker -/

namespace Fresh

variable {α β : Type}

/-- A sequence succeeds if its parts do, one after the other. -/
theorem run_bind_eq_ok {x : Fresh Empty α} {f : α → Fresh Empty β} {c c' : Int} {b : β} :
    (x >>= f).run c = .ok b c' ↔
      ∃ a c₁, x.run c = .ok a c₁ ∧ (f a).run c₁ = .ok b c' := by
  rw [EStateM.run_bind]
  cases hx : x.run c with
  | ok a c₁ =>
      constructor
      · intro h
        exact ⟨a, c₁, rfl, h⟩
      · rintro ⟨a', c₁', heq, h⟩
        cases heq
        exact h
  | error error c₁ => simp

/-- A value is answered without counting. -/
theorem run_pure_eq_ok {a b : α} {c c' : Int} :
    (pure a : Fresh Empty α).run c = .ok b c' ↔ b = a ∧ c' = c := by
  rw [EStateM.run_pure, EStateM.Result.ok.injEq]
  exact and_congr eq_comm eq_comm

/-- A failure is no success. -/
theorem run_throw_eq_ok {error : CheckError Empty} {b : α} {c c' : Int} :
    (throw error : Fresh Empty α).run c = .ok b c' ↔ False := by
  constructor
  · intro h
    cases h
  · exact False.elim

/-- A fresh variable has the next number. -/
theorem run_var_eq_ok {c c' : Int} {t : MonoTy} :
    (var : Fresh Empty MonoTy).run c = .ok t c' ↔
      t = .var (typeVarName (c + 1)) ∧ c' = c + 1 :=
  run_pure_eq_ok

/-- What needs no fresh variables leaves the counter alone. -/
theorem run_lift_eq_ok {x : Checked Empty α} {c c' : Int} {a : α} :
    (lift x : Fresh Empty α).run c = .ok a c' ↔ x = .ok a ∧ c' = c := by
  cases x with
  | ok value =>
      rw [lift, run_pure_eq_ok, Except.ok.injEq]
      exact and_congr eq_comm Iff.rfl
  | error error =>
      rw [lift, run_throw_eq_ok]
      simp

end Fresh

/-- The environment for the body of a local definition whose value has a type under a
solution. -/
def Env.bindSolved (Γ : Env Empty) (s : Subst Empty) (x : String) (t : MonoTy) : Env Empty :=
  (Γ.apply s).insert x ((t.apply s).generalize (Γ.apply s))

/-- The name of a local definition is bound if the constraints of its value can be solved. -/
theorem Typed.bindIn_eq_ok {v : Typed Empty} {Γ Γ' : Env Empty} {x : String} :
    v.bindIn Γ x = .ok Γ' ↔
      ∃ s, Constraint.solve v.constraints = .ok s ∧ Γ' = Γ.bindSolved s x v.type := by
  simp only [Typed.bindIn]
  cases Constraint.solve v.constraints with
  | error error =>
      constructor
      · intro h
        cases h
      · rintro ⟨s, h, -⟩
        cases h
  | ok s =>
      constructor
      · intro h
        cases h
        exact ⟨s, rfl, rfl⟩
      · rintro ⟨s', h, rfl⟩
        cases h
        rfl

/-! ## Runs, form by form -/

namespace Expr

/-- Inference on an expression succeeds with a result and leaves the counter at a value. -/
def Infers (Γ : Env Empty) (c : Int) (e : Expr) (r : Typed Empty) (c' : Int) : Prop :=
  (e.infer Γ).run c = .ok r c'

/-- Inference on list elements succeeds with constraints. -/
def InfersAll (Γ : Env Empty) (c : Int) (element : MonoTy) (es : List Expr)
    (C : List (Constraint Empty)) (c' : Int) : Prop :=
  (inferElements Γ element es).run c = .ok C c'

section Forms

-- every lemma of this section opens the checker at one form
attribute [local simp] Infers InfersAll infer inferElements

variable {Γ : Env Empty} {c c' : Int} {r : Typed Empty}

/-- Integers have their type without constraints. -/
theorem infers_int {n : Int} : Infers Γ c (.int n) r c' ↔ r = ⟨.int, []⟩ ∧ c' = c := by
  simp [eq_comm]

/-- So have truth values. -/
theorem infers_bool {b : Bool} : Infers Γ c (.bool b) r c' ↔ r = ⟨.bool, []⟩ ∧ c' = c := by
  simp [eq_comm]

/-- A name has a fresh copy of its scheme. -/
theorem infers_var {x : String} :
    Infers Γ c (.var x) r c' ↔
      ∃ σ t, Γ.get? x = some σ ∧ σ.instantiate.run c = .ok t c' ∧ r = ⟨t, []⟩ := by
  rw [Infers, infer]
  cases Γ.get? x with
  | none => simp [Fresh.run_throw_eq_ok]
  | some σ =>
      simp only [Fresh.run_bind_eq_ok, Fresh.run_pure_eq_ok, Option.some.injEq]
      constructor
      · rintro ⟨t, c₁, ht, rfl, rfl⟩
        exact ⟨σ, t, rfl, ht, rfl⟩
      · rintro ⟨_, t, rfl, ht, rfl⟩
        exact ⟨t, c', ht, rfl, rfl⟩

/-- A parameter has a fresh type in the body. -/
theorem infers_lam {x : String} {body : Expr} :
    Infers Γ c (.lam x body) r c' ↔
      ∃ b, Infers (Γ.insert x (.mono (.var (typeVarName (c + 1))))) (c + 1) body b c' ∧
        r = ⟨.fn (.var (typeVarName (c + 1))) b.type, b.constraints⟩ := by
  simp only [Infers, infer, Fresh.run_bind_eq_ok, Fresh.run_var_eq_ok, Fresh.run_pure_eq_ok]
  constructor
  · rintro ⟨t, c₁, ⟨rfl, rfl⟩, b, c₂, hb, rfl, rfl⟩
    exact ⟨b, hb, rfl⟩
  · rintro ⟨b, hb, rfl⟩
    exact ⟨_, _, ⟨rfl, rfl⟩, b, c', hb, rfl, rfl⟩

/-- The function must take the type of the argument to a fresh type. -/
theorem infers_app {f a : Expr} :
    Infers Γ c (.app f a) r c' ↔
      ∃ rf c₁ ra c₂, Infers Γ c f rf c₁ ∧ Infers Γ c₁ a ra c₂ ∧ c' = c₂ + 1 ∧
        r = ⟨.var (typeVarName c'), rf.constraints ++ ra.constraints ++
          [⟨rf.type, .fn ra.type (.var (typeVarName c'))⟩]⟩ := by
  simp only [Infers, infer, Fresh.run_bind_eq_ok, Fresh.run_var_eq_ok, Fresh.run_pure_eq_ok]
  constructor
  · rintro ⟨rf, c₁, hf, ra, c₂, ha, t, c₃, ⟨rfl, rfl⟩, rfl, rfl⟩
    exact ⟨rf, c₁, ra, c₂, hf, ha, rfl, rfl⟩
  · rintro ⟨rf, c₁, ra, c₂, hf, ha, rfl, rfl⟩
    exact ⟨rf, c₁, hf, ra, c₂, ha, _, _, ⟨rfl, rfl⟩, rfl, rfl⟩

/-- The value is solved on its own, and its constraints are kept for the whole. -/
theorem infers_letIn {x : String} {value body : Expr} :
    Infers Γ c (.letIn x value body) r c' ↔
      ∃ v c₁ s b, Infers Γ c value v c₁ ∧ Constraint.solve v.constraints = .ok s ∧
        Infers (Γ.bindSolved s x v.type) c₁ body b c' ∧
        r = ⟨b.type, v.constraints ++ b.constraints⟩ := by
  simp only [Infers, infer, Fresh.run_bind_eq_ok, Fresh.run_lift_eq_ok,
    Typed.bindIn_eq_ok, Fresh.run_pure_eq_ok]
  constructor
  · rintro ⟨v, c₁, hv, Γ', c₂, ⟨⟨s, hs, rfl⟩, rfl⟩, b, c₃, hb, rfl, rfl⟩
    exact ⟨v, _, s, b, hv, hs, hb, rfl⟩
  · rintro ⟨v, c₁, s, b, hv, hs, hb, rfl⟩
    exact ⟨v, c₁, hv, _, _, ⟨⟨s, hs, rfl⟩, rfl⟩, b, c', hb, rfl, rfl⟩

/-- The test is a truth value, and both branches have one type. -/
theorem infers_ifThenElse {test onTrue onFalse : Expr} :
    Infers Γ c (.ifThenElse test onTrue onFalse) r c' ↔
      ∃ t c₁ a c₂ b, Infers Γ c test t c₁ ∧ Infers Γ c₁ onTrue a c₂ ∧
        Infers Γ c₂ onFalse b c' ∧
        r = ⟨a.type, t.constraints ++ a.constraints ++ b.constraints ++
          [⟨t.type, .bool⟩, ⟨a.type, b.type⟩]⟩ := by
  simp only [Infers, infer, Fresh.run_bind_eq_ok, Fresh.run_pure_eq_ok]
  constructor
  · rintro ⟨t, c₁, ht, a, c₂, ha, b, c₃, hb, rfl, rfl⟩
    exact ⟨t, c₁, a, c₂, b, ht, ha, hb, rfl⟩
  · rintro ⟨t, c₁, a, c₂, b, ht, ha, hb, rfl⟩
    exact ⟨t, c₁, ht, a, c₂, ha, b, c', hb, rfl, rfl⟩

/-- The body must take the fresh result to itself. -/
theorem infers_fix {body : Expr} :
    Infers Γ c (.fix body) r c' ↔
      ∃ b c₁, Infers Γ c body b c₁ ∧ c' = c₁ + 1 ∧
        r = ⟨.var (typeVarName c'), b.constraints ++
          [⟨b.type, .fn (.var (typeVarName c')) (.var (typeVarName c'))⟩]⟩ := by
  simp only [Infers, infer, Fresh.run_bind_eq_ok, Fresh.run_var_eq_ok, Fresh.run_pure_eq_ok]
  constructor
  · rintro ⟨b, c₁, hb, t, c₂, ⟨rfl, rfl⟩, rfl, rfl⟩
    exact ⟨b, c₁, hb, rfl, rfl⟩
  · rintro ⟨b, c₁, hb, rfl, rfl⟩
    exact ⟨b, c₁, hb, _, _, ⟨rfl, rfl⟩, rfl, rfl⟩

/-- There are fresh types for the list and for its elements. -/
theorem infers_list {es : List Expr} :
    Infers Γ c (.list es) r c' ↔
      ∃ C, InfersAll Γ (c + 1 + 1) (.var (typeVarName (c + 1 + 1))) es C c' ∧
        r = ⟨.var (typeVarName (c + 1)), C ++
          [⟨.var (typeVarName (c + 1)), .list (.var (typeVarName (c + 1 + 1)))⟩]⟩ := by
  simp only [Infers, InfersAll, infer, Fresh.run_bind_eq_ok, Fresh.run_var_eq_ok,
    Fresh.run_pure_eq_ok]
  constructor
  · rintro ⟨t, c₁, ⟨rfl, rfl⟩, u, c₂, ⟨rfl, rfl⟩, C, c₃, hC, rfl, rfl⟩
    exact ⟨C, hC, rfl⟩
  · rintro ⟨C, hC, rfl⟩
    exact ⟨_, _, ⟨rfl, rfl⟩, _, _, ⟨rfl, rfl⟩, C, c', hC, rfl, rfl⟩

/-- No elements make no constraints. -/
theorem infersAll_nil {element : MonoTy} {C : List (Constraint Empty)} :
    InfersAll Γ c element [] C c' ↔ C = [] ∧ c' = c := by
  simp [eq_comm]

/-- Each element must have the type of the elements. -/
theorem infersAll_cons {element : MonoTy} {e : Expr} {es : List Expr}
    {C : List (Constraint Empty)} :
    InfersAll Γ c element (e :: es) C c' ↔
      ∃ t c₁ D, Infers Γ c e t c₁ ∧ InfersAll Γ c₁ element es D c' ∧
        C = t.constraints ++ ⟨t.type, element⟩ :: D := by
  simp only [Infers, InfersAll, inferElements, Fresh.run_bind_eq_ok, Fresh.run_pure_eq_ok]
  constructor
  · rintro ⟨t, c₁, ht, D, c₂, hD, rfl, rfl⟩
    exact ⟨t, c₁, D, ht, hD, rfl⟩
  · rintro ⟨t, c₁, D, ht, hD, rfl⟩
    exact ⟨t, c₁, ht, D, c', hD, rfl, rfl⟩

/-- There is no run on a missing part. -/
theorem infers_hole : ¬ Infers Γ c .hole r c' := by
  simp [Fresh.run_throw_eq_ok]

end Forms

end Expr

/-! ## Instantiation -/

open Assignment (overlay overlay_of_mem overlay_of_not_mem)

/-- Pairing names with numbered variables numbers them apart, after the counter. -/
theorem Fresh.exists_number_pairedWith (c : Int) (names : List String) :
    ∃ number : String → Int,
      (∀ a ∈ names, c < number a ∧ number a ≤ c + names.length) ∧
      (∀ a ∈ names, ∀ b ∈ names, number a = number b → a = b) ∧
      ∀ a, Bindings.get? (.ofList (pairedWith c names) : Subst Empty) a =
        if a ∈ names then some (.var (typeVarName (number a))) else none := by
  induction names generalizing c with
  | nil => exact ⟨fun _ => c, by simp, by simp, fun a => by simp [pairedWith, Bindings.get?_ofList]⟩
  | cons v rest ih =>
      obtain ⟨number, hrange, hinj, hget⟩ := ih (c + 1)
      -- a name that comes again later takes its later number
      refine ⟨fun a => if a ∈ rest then number a else c + 1, ?_, ?_, ?_⟩
      · intro a ha
        by_cases hrest : a ∈ rest
        · have hbounds := hrange a hrest
          simp only [hrest, if_true, List.length_cons]
          omega
        · simp only [hrest, if_false, List.length_cons]
          omega
      · intro a ha b hb heq
        have hbounds := hrange a
        have hbounds' := hrange b
        grind
      · intro a
        have hrest := hget a
        rw [Bindings.get?_ofList] at hrest ⊢
        rw [pairedWith, List.reverse_cons, List.lookup_append, hrest]
        by_cases ha : a ∈ rest
        · simp [ha]
        · by_cases hav : a = v
          · subst hav
            simp [ha]
          · have hbeq : (a == v) = false := by simp [hav]
            simp [ha, hav, List.lookup_cons, hbeq]

namespace Scheme

/-- A scheme is instantiated by numbering its quantified variables apart. -/
theorem exists_instantiate (σ : Scheme Empty) (c : Int) :
    ∃ number : String → Int,
      (∀ a ∈ σ.bound, c < number a ∧ number a ≤ c + σ.bound.length) ∧
      (∀ a ∈ σ.bound, ∀ b ∈ σ.bound, number a = number b → a = b) ∧
      σ.instantiate.run c =
        .ok (σ.body.inst (overlay σ.bound (fun a => .var (typeVarName (number a))) .var))
          (c + σ.bound.length) := by
  obtain ⟨number, hrange, hinj, hget⟩ := Fresh.exists_number_pairedWith c σ.bound
  refine ⟨number, hrange, hinj, ?_⟩
  change EStateM.Result.ok (σ.body.apply (.ofList (Fresh.pairedWith c σ.bound))) _ = _
  congr 1
  rw [Ty.apply_eq_inst]
  refine Ty.inst_congr fun a _ => ?_
  by_cases ha : a ∈ σ.bound
  · rw [overlay_of_mem ha]
    exact Subst.image_of_get?_eq_some (by rw [hget, if_pos ha])
  · rw [overlay_of_not_mem ha]
    exact Subst.image_of_get?_eq_none (by rw [hget, if_neg ha])

/-- A fresh copy of a scheme's body: it mentions the free variables of the scheme and new
ones, and its instances are instances of the scheme. -/
structure Instantiates (σ : Scheme Empty) (c : Int) (t : MonoTy) (c' : Int) : Prop where
  le : c ≤ c'
  mentions : ∀ a ∈ t.freeVars, a ∈ σ.freeVars ∨ Minted c c' a
  sound : ∀ θ : Assignment, t.inst θ ∈ σ.instances θ
  complete : ∀ (θ : Assignment) (u : MonoTy), u ∈ σ.instances θ →
    (∀ a ∈ σ.freeVars, ¬ Minted c c' a) →
    ∃ ρ : Assignment, (∀ a, ¬ Minted c c' a → ρ a = θ a) ∧ t.inst ρ = u

/-- Instantiation always succeeds, and it makes a fresh copy of the body. -/
theorem instantiates_instantiate (σ : Scheme Empty) (c : Int) :
    ∃ t c', σ.instantiate.run c = .ok t c' ∧ σ.Instantiates c t c' := by
  obtain ⟨number, hrange, hinj, hrun⟩ := σ.exists_instantiate c
  refine ⟨_, _, hrun, ?_, ?_, ?_, ?_⟩
  · omega
  · intro b hb
    obtain ⟨a, ha, hba⟩ := Ty.mem_freeVars_inst.1 hb
    by_cases hbound : a ∈ σ.bound
    · rw [overlay_of_mem hbound, Ty.mem_freeVars_var] at hba
      obtain ⟨hlow, hhigh⟩ := hrange a hbound
      exact Or.inr ⟨number a, hlow, hhigh, hba⟩
    · rw [overlay_of_not_mem hbound, Ty.mem_freeVars_var] at hba
      subst hba
      exact Or.inl (mem_freeVars.2 ⟨ha, hbound⟩)
  · intro θ
    refine ⟨fun a => θ (typeVarName (number a)), ?_⟩
    rw [Ty.inst_inst]
    refine Ty.inst_congr fun a _ => ?_
    by_cases hbound : a ∈ σ.bound
    · rw [overlay_of_mem hbound, overlay_of_mem hbound, Ty.inst_var]
    · rw [overlay_of_not_mem hbound, overlay_of_not_mem hbound, Ty.inst_var]
  · rintro θ u ⟨η, rfl⟩ hfree
    classical
    -- a new variable takes the type of the quantified variable that it stands for
    let ρ : Assignment := fun b =>
      if h : ∃ a ∈ σ.bound, b = typeVarName (number a) then η h.choose else θ b
    have hnew : ∀ a ∈ σ.bound, ρ (typeVarName (number a)) = η a := by
      intro a ha
      have hex : ∃ a' ∈ σ.bound, typeVarName (number a) = typeVarName (number a') :=
        ⟨a, ha, rfl⟩
      obtain ⟨hmem, heq⟩ := hex.choose_spec
      have hsame : a = hex.choose := hinj a ha _ hmem (typeVarName_injective heq)
      have hρ : ρ (typeVarName (number a)) = η hex.choose := dif_pos hex
      rw [hρ, ← hsame]
    have hold : ∀ b, ¬ Minted c (c + σ.bound.length) b → ρ b = θ b := by
      intro b hb
      refine dif_neg ?_
      rintro ⟨a, ha, rfl⟩
      obtain ⟨hlow, hhigh⟩ := hrange a ha
      exact hb ⟨number a, hlow, hhigh, rfl⟩
    refine ⟨ρ, hold, ?_⟩
    rw [Ty.inst_inst]
    refine Ty.inst_congr fun a ha => ?_
    by_cases hbound : a ∈ σ.bound
    · rw [overlay_of_mem hbound, overlay_of_mem hbound, Ty.inst_var, hnew a hbound]
    · rw [overlay_of_not_mem hbound, overlay_of_not_mem hbound, Ty.inst_var,
        hold a (hfree a (mem_freeVars.2 ⟨ha, hbound⟩))]

/-- A run of instantiation makes a fresh copy. -/
theorem Instantiates.of_run {σ : Scheme Empty} {c c' : Int} {t : MonoTy}
    (h : σ.instantiate.run c = .ok t c') : σ.Instantiates c t c' := by
  obtain ⟨t', c'', hrun, hinst⟩ := σ.instantiates_instantiate c
  rw [hrun] at h
  cases h
  exact hinst

end Scheme

namespace Expr

/-- An operator is typed by a fresh copy of its scheme. -/
theorem infers_prim {Γ : Env Empty} {c c' : Int} {p : Primitive} {r : Typed Empty} :
    Infers Γ c (.prim p) r c' ↔
      ∃ t, p.signature.instantiate.run c = .ok t c' ∧ r = ⟨t, []⟩ := by
  have htype : (p.type : Fresh Empty MonoTy).run c = p.signature.instantiate.run c := by
    cases p <;> exact congrArg (EStateM.Result.ok _)
      (by simp [Primitive.signature, Scheme.mono, Int.add_assoc])
  simp only [Infers, infer, Fresh.run_bind_eq_ok, Fresh.run_pure_eq_ok, htype]
  constructor
  · rintro ⟨t, c₁, ht, rfl, rfl⟩
    exact ⟨t, ht, rfl⟩
  · rintro ⟨t, ht, rfl⟩
    exact ⟨t, c', ht, rfl, rfl⟩

end Expr

/-! ## Whole expressions -/

/-- A check is known by its result, which can be computed and compared. -/
theorem Checked.eq_ok_of_toOption {α : Type} {x : Checked Empty α} {a : α}
    (h : x.toOption = some a) : x = .ok a := by
  cases x with
  | ok b =>
      cases h
      rfl
  | error error => cases h

/-- A result is finished exactly when its constraints are solved; closing never fails. -/
theorem Typed.finish_eq_ok {v : Typed Empty} {r : Inference Empty} :
    v.finish = .ok r ↔
      ∃ s σ, Constraint.solve v.constraints = .ok s ∧ (v.type.apply s).closeOver = .ok σ ∧
        r = ⟨v.constraints, s, v.type.apply s, σ⟩ := by
  rw [Typed.finish]
  cases Constraint.solve v.constraints with
  | error error =>
      constructor
      · intro h
        cases h
      · rintro ⟨s, σ, h, -⟩
        cases h
  | ok s =>
      obtain ⟨σ, hσ, -⟩ := (v.type.apply s).exists_closeOver
      simp only [bind, Except.bind, hσ]
      constructor
      · intro h
        cases h
        exact ⟨s, σ, rfl, hσ, rfl⟩
      · rintro ⟨s', σ', hs, hσ', rfl⟩
        cases hs
        rw [hσ] at hσ'
        cases hσ'
        rfl

namespace Expr

/-- Inference starts with no variables made and finishes what its run answers. -/
theorem inference_eq_ok {Γ : Env Empty} {e : Expr} {r : Inference Empty} :
    e.inference Γ = .ok r ↔ ∃ v c, Infers Γ 0 e v c ∧ v.finish = .ok r := by
  rw [inference, Fresh.runFrom]
  cases hrun : (e.infer Γ).run 0 with
  | error error c =>
      constructor
      · intro h
        cases h
      · rintro ⟨v, c', h, -⟩
        rw [Infers, hrun] at h
        cases h
  | ok v c =>
      constructor
      · intro h
        exact ⟨v, c, hrun, h⟩
      · rintro ⟨v', c', h, hfinish⟩
        rw [Infers, hrun] at h
        cases h
        exact hfinish

/-- The scheme that inference answers is closed and stands for the instances of the type. -/
theorem scheme_of_inference {Γ : Env Empty} {e : Expr} {r : Inference Empty}
    (h : e.inference Γ = .ok r) :
    r.scheme.Closed ∧ ∀ t, r.scheme.Instance t ↔ ∃ θ, r.type.inst θ = t := by
  obtain ⟨v, c, -, hfinish⟩ := inference_eq_ok.1 h
  obtain ⟨s, σ, -, hclose, rfl⟩ := Typed.finish_eq_ok.1 hfinish
  obtain ⟨σ', hclose', hclosed, hinstances⟩ := (v.type.apply s).exists_closeOver
  rw [hclose] at hclose'
  cases hclose'
  exact ⟨hclosed, hinstances⟩

/-- A scheme is inferred exactly if the inference succeeds with it. -/
theorem scheme_eq_ok {κ : Type} [DecidableEq κ] {Γ : Env κ} {e : Expr} {σ : Scheme κ} :
    e.scheme Γ = .ok σ ↔ ∃ r, e.inference Γ = .ok r ∧ r.scheme = σ := by
  rw [Expr.scheme]
  cases e.inference Γ with
  | error error =>
      constructor
      · intro h
        cases h
      · rintro ⟨r, h, -⟩
        cases h
  | ok r =>
      constructor
      · intro h
        cases h
        exact ⟨r, rfl, rfl⟩
      · rintro ⟨r', h, rfl⟩
        cases h
        rfl

/-- What is inferred for a whole expression is closed. -/
theorem closed_of_scheme {Γ : Env Empty} {e : Expr} {σ : Scheme Empty}
    (h : e.scheme Γ = .ok σ) : σ.Closed := by
  obtain ⟨r, hr, rfl⟩ := scheme_eq_ok.1 h
  exact (scheme_of_inference hr).1

end Expr

/-! ## Typed programs -/

section Programs

variable {κ : Type} [DecidableEq κ]

/-- A definition that is typed binds its name for those behind it. -/
theorem Definition.extend_cons_of_scheme {Γ : Env κ} {d : Definition} {σ : Scheme κ}
    (h : d.value.scheme Γ = .ok σ) (rest : List Definition) :
    Definition.extend Γ (d :: rest) = Definition.extend (Γ.insert d.name σ) rest := by
  rw [Definition.extend, h]
  rfl

/-- Definitions are typed one after the other. -/
theorem Definition.extend_cons {Γ Δ : Env κ} {d : Definition} {rest : List Definition}
    (h : Definition.extend Γ (d :: rest) = .ok Δ) :
    ∃ σ, d.value.scheme Γ = .ok σ ∧ Definition.extend (Γ.insert d.name σ) rest = .ok Δ := by
  cases hσ : d.value.scheme Γ with
  | error error =>
      rw [Definition.extend, hσ] at h
      cases h
  | ok σ => exact ⟨σ, rfl, Definition.extend_cons_of_scheme hσ rest ▸ h⟩

/-- A typed program is made of typed definitions and a body that is typed after them. -/
theorem Program.infer_eq_ok {program : Program} {Γ Δ : Env κ} {σ : Scheme κ}
    (h : program.infer Γ = .ok (Δ, σ)) :
    Definition.extend Γ program.definitions = .ok Δ ∧ program.body.scheme Δ = .ok σ := by
  rw [Program.infer] at h
  cases hextend : Definition.extend Γ program.definitions with
  | error error =>
      rw [hextend] at h
      cases h
  | ok Δ' =>
      rw [hextend] at h
      cases hbody : program.body.scheme Δ' with
      | error error =>
          simp only [bind, Except.bind, hbody] at h
          cases h
      | ok σ' =>
          simp only [bind, Except.bind, hbody] at h
          cases h
          exact ⟨rfl, hbody⟩

/-- A program is typed by its definitions, one after the other, and its body after them. -/
theorem Program.infer_eq_ok_iff {program : Program} {Γ Δ : Env κ} {σ : Scheme κ} :
    program.infer Γ = .ok (Δ, σ) ↔
      Definition.extend Γ program.definitions = .ok Δ ∧ program.body.scheme Δ = .ok σ := by
  refine ⟨Program.infer_eq_ok, fun ⟨hextend, hbody⟩ => ?_⟩
  rw [Program.infer, hextend]
  simp only [bind, Except.bind, hbody]
  rfl

end Programs

/-- Definitions leave an environment of closed schemes. -/
theorem Definition.extend_closed {Γ Δ : Env Empty} {definitions : List Definition}
    (hΓ : Γ.Closed) (h : Definition.extend Γ definitions = .ok Δ) : Δ.Closed := by
  induction definitions generalizing Γ with
  | nil =>
      cases h
      exact hΓ
  | cons d rest ih =>
      obtain ⟨σ, hσ, hrest⟩ := Definition.extend_cons h
      exact ih (hΓ.insert (Expr.closed_of_scheme hσ) d.name) hrest

end LetPoly
