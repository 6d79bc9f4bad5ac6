import LetPoly.Proofs.Inference.Variables
import LetPoly.Proofs.Renaming

/-!
# Inference from another number on

Inference numbers its variables from a counter on.  Started at another number in an
environment that is renamed to match, it does the same with the other variables, and fails
in the same way.

Main results:

- Theorem {lit}`Env.bindSolved_relabel`: the environment for the body of a local definition
  is renamed with the one around it.
- Theorem {lit}`Fresh.Mirrors.bind`: checks that do the same one after the other.
- Theorem {lit}`Expr.infer_relabel`: inference from another number on.
-/

namespace LetPoly

/-! ## Schemes and environments -/

section Embedding

variable (f : String ↪ String)

/-- Renaming a substitution commutes with dropping variables from it. -/
theorem Subst.without_relabel (s : Subst Empty) (bound : List String) :
    Bindings.without (s.relabel f) (bound.map f) = Subst.relabel f (s.without bound) := by
  refine Bindings.ext_entries ?_
  simp only [Bindings.without, Subst.relabel, List.filter_map]
  congr 1
  refine List.filter_congr fun entry _ => ?_
  simp

namespace Scheme

/-- A renamed variable is free in the renamed scheme exactly where it was. -/
theorem mem_freeVars_relabel {σ : Scheme Empty} {a : String} :
    f a ∈ (σ.relabel f).freeVars ↔ a ∈ σ.freeVars := by
  simp [Scheme.mem_freeVars, relabel, Ty.mem_freeVars_relabel_iff]

/-- Renaming commutes with substitution on schemes. -/
theorem apply_relabel (σ : Scheme Empty) (s : Subst Empty) :
    (σ.relabel f).apply (s.relabel f) = (σ.apply s).relabel f := by
  simp only [apply, relabel, Subst.without_relabel, Ty.apply_relabel]

end Scheme

namespace Env

/-- Renames the variables of every scheme of an environment. -/
def relabel (f : String → String) (Γ : Env Empty) : Env Empty :=
  Γ.mapValues (Scheme.relabel f)

theorem get?_relabel (f : String → String) (Γ : Env Empty) (x : String) :
    Bindings.get? (Γ.relabel f) x = (Γ.get? x).map (Scheme.relabel f) :=
  Bindings.get?_mapValues _ _ _

/-- A name is bound to the renamed scheme. -/
theorem insert_relabel (f : String → String) (Γ : Env Empty) (x : String) (σ : Scheme Empty) :
    Bindings.insert (Γ.relabel f) x (σ.relabel f) = Env.relabel f (Γ.insert x σ) := by
  refine Bindings.ext_names ?_ fun y _ => ?_
  · simp only [relabel, Bindings.names_insert, Bindings.names_mapValues]
  · rw [Bindings.get?_insert, get?_relabel, get?_relabel, Bindings.get?_insert]
    split_ifs <;> rfl

/-- Renaming commutes with substitution on environments. -/
theorem apply_relabel (Γ : Env Empty) (s : Subst Empty) :
    (Γ.relabel f).apply (s.relabel f) = (Γ.apply s).relabel f := by
  refine Bindings.ext_names ?_ fun x _ => ?_
  · simp only [relabel, Env.apply, Bindings.names_mapValues]
  · rw [get?_apply, get?_relabel, get?_relabel, get?_apply, Option.map_map, Option.map_map]
    exact congrArg (fun g => (Γ.get? x).map g) (funext fun σ => σ.apply_relabel f s)

/-- The free variables of an environment are renamed with it. -/
theorem mem_freeVars_relabel {Γ : Env Empty} {a : String} :
    f a ∈ (Γ.relabel f).freeVars ↔ a ∈ Γ.freeVars := by
  simp only [Env.mem_freeVars, get?_relabel, Option.map_eq_some_iff]
  constructor
  · rintro ⟨x, _, ⟨σ, hx, rfl⟩, ha⟩
    exact ⟨x, σ, hx, (Scheme.mem_freeVars_relabel f).1 ha⟩
  · rintro ⟨x, σ, hx, ha⟩
    exact ⟨x, _, ⟨σ, hx, rfl⟩, (Scheme.mem_freeVars_relabel f).2 ha⟩

end Env

/-- The renamed type is generalized over the renamed variables. -/
theorem Ty.generalize_relabel (t : MonoTy) (Γ : Env Empty) :
    (t.relabel f).generalize (Γ.relabel f) = (t.generalize Γ).relabel f := by
  have hbound : ((t.relabel f).generalize (Γ.relabel f)).bound =
      (t.generalize Γ).bound.map f := by
    change (t.relabel f).freeVars.toList.filter _ = (t.freeVars.toList.filter _).map f
    rw [freeVars_relabel f.injective.injOn, List.filter_map]
    congr 1
    refine List.filter_congr fun a _ => ?_
    simp [OrderedSet.contains, Env.mem_freeVars_relabel]
  rw [Scheme.relabel, ← hbound]
  rfl

/-- The environment for the body of a local definition is renamed with the one around
it. -/
theorem Env.bindSolved_relabel (Γ : Env Empty) (s : Subst Empty) (x : String) (t : MonoTy) :
    (Γ.relabel f).bindSolved (s.relabel f) x (t.relabel f) = (Γ.bindSolved s x t).relabel f := by
  rw [bindSolved, bindSolved, Env.apply_relabel, Ty.apply_relabel, Ty.generalize_relabel,
    insert_relabel]

end Embedding

/-- Renames the variables of a type and of its constraints. -/
def Typed.relabel (f : String → String) (v : Typed Empty) : Typed Empty where
  type := v.type.relabel f
  constraints := v.constraints.map (Constraint.relabel f)

/-- A local definition is bound to the renamed scheme, or fails with the renamed error. -/
theorem Typed.bindIn_relabel (f : String ↪ String) (v : Typed Empty) (Γ : Env Empty)
    (x : String) :
    (v.relabel f).bindIn (Γ.relabel f) x = (v.bindIn Γ x).relabel f (Env.relabel f) := by
  rw [Typed.bindIn, Typed.bindIn, Typed.relabel, Constraint.solve_relabel]
  exact Checked.relabel_bind fun s => congrArg Except.ok (Γ.bindSolved_relabel f s x v.type)

/-! ## Checks from another number on -/

namespace Fresh

variable {α β γ δ : Type}

/-- An outcome with its variables renamed and its counter moved. -/
def moved (f : String → String) (d : Int) (g : α → β) :
    EStateM.Result (CheckError Empty) Int α → EStateM.Result (CheckError Empty) Int β
  | .ok a c => .ok (g a) (c + d)
  | .error error c => .error (error.relabel f) (c + d)

/-- The second check does from a counter that is moved what the first does, with other
variables. -/
def Mirrors (f : String → String) (d : Int) (g : α → β) (x : Fresh Empty α)
    (y : Fresh Empty β) : Prop :=
  ∀ c, y.run (c + d) = moved f d g (x.run c)

namespace Mirrors

variable {f : String → String} {d : Int} {g : α → β}

/-- Values mirror each other if they are renamed. -/
theorem pure {a : α} {b : β} (h : b = g a) :
    Mirrors f d g (Pure.pure a) (Pure.pure b) := by
  subst h
  exact fun c => rfl

/-- Errors mirror each other if they are renamed. -/
theorem throw {error error' : CheckError Empty} (h : error' = error.relabel f) :
    Mirrors f d g (throwThe _ error) (throwThe _ error') := by
  subst h
  exact fun c => rfl

/-- Checks without a counter mirror each other if their outcomes are renamed. -/
theorem lift {x : Checked Empty α} {y : Checked Empty β} (h : y = x.relabel f g) :
    Mirrors f d g (Fresh.lift x) (Fresh.lift y) := by
  subst h
  cases x with
  | ok a => exact pure rfl
  | error error => exact throw rfl

/-- Checks that do the same one after the other. -/
theorem bind {h : γ → δ} {x : Fresh Empty α} {y : Fresh Empty β} {k : α → Fresh Empty γ}
    {k' : β → Fresh Empty δ} (hx : Mirrors f d g x y)
    (hk : ∀ a, Mirrors f d h (k a) (k' (g a))) : Mirrors f d h (x >>= k) (y >>= k') := by
  intro c
  rw [EStateM.run_bind, EStateM.run_bind, hx c]
  cases x.run c with
  | ok a c₁ => exact hk a c₁
  | error error c₁ => rfl

variable (hf : ∀ number, f (typeVarName number) = typeVarName (number + d))

include hf

/-- A fresh variable is renamed to the fresh variable of the moved counter. -/
theorem var : Mirrors f d (Ty.relabel f) Fresh.var Fresh.var := by
  intro c
  change EStateM.Result.ok (Ty.var (typeVarName (c + d + 1))) (c + d + 1) =
    .ok (Ty.var (f (typeVarName (c + 1)))) (c + 1 + d)
  rw [hf, Int.add_right_comm]

end Mirrors

/-- The fresh copies of renamed names are the renamed copies. -/
theorem pairedWith_map {f : String → String} {d : Int}
    (hf : ∀ number, f (typeVarName number) = typeVarName (number + d)) (g : String → String)
    (c : Int) (names : List String) :
    pairedWith (c + d) (names.map g) =
      (pairedWith c names).map fun entry => (g entry.1, entry.2.relabel f) := by
  induction names generalizing c with
  | nil => rfl
  | cons v rest ih =>
      rw [List.map_cons, pairedWith, pairedWith, Int.add_right_comm, ih, List.map_cons,
        Ty.relabel_var, hf]

/-- Each name gets one fresh copy. -/
theorem names_pairedWith (c : Int) (names : List String) :
    (pairedWith c names : List (String × MonoTy)).map Prod.fst = names := by
  induction names generalizing c with
  | nil => rfl
  | cons v rest ih => rw [pairedWith, List.map_cons, ih]

end Fresh

namespace Scheme

/-- The fresh copy of a scheme whose quantified variables are renamed apart and whose free
variables are renamed. -/
theorem apply_pairedWith_relabel {f g : String → String} {d : Int}
    (hf : ∀ number, f (typeVarName number) = typeVarName (number + d)) {σ : Scheme Empty}
    (hbound : ∀ a ∈ σ.body.freeVars, ∀ b ∈ σ.bound, g a = g b → a = b)
    (hfree : ∀ a ∈ σ.freeVars, g a = f a) (c : Int) :
    (σ.body.relabel g).apply (.ofList (Fresh.pairedWith (c + d) (σ.bound.map g))) =
      (σ.body.apply (.ofList (Fresh.pairedWith c σ.bound))).relabel f := by
  rw [Ty.apply_eq_inst, Ty.apply_eq_inst, Ty.relabel, Ty.relabel, Ty.inst_inst, Ty.inst_inst]
  refine Ty.inst_congr fun a ha => ?_
  have hget : Bindings.get? (.ofList (Fresh.pairedWith (c + d) (σ.bound.map g)) : Subst Empty)
      (g a) = (Bindings.get? (.ofList (Fresh.pairedWith c σ.bound) : Subst Empty) a).map
        (Ty.relabel f) := by
    rw [Bindings.get?_ofList, Bindings.get?_ofList, Fresh.pairedWith_map hf, ← List.map_reverse]
    refine lookup_map_names fun b hb => hbound a ha b ?_
    rwa [List.map_reverse, Fresh.names_pairedWith, List.mem_reverse] at hb
  obtain ⟨number, -, -, hnumber⟩ := Fresh.exists_number_pairedWith c σ.bound
  rw [Ty.inst_var, Subst.image, Subst.image, hget, hnumber]
  by_cases hmem : a ∈ σ.bound
  · rw [if_pos hmem]
    rfl
  · rw [if_neg hmem]
    exact congrArg Ty.var (hfree a (Scheme.mem_freeVars.2 ⟨ha, hmem⟩))

/-- Fresh copies of a renamed scheme mirror those of the scheme. -/
theorem instantiate_mirrors {f : String ↪ String} {d : Int}
    (hf : ∀ number, f (typeVarName number) = typeVarName (number + d)) (σ : Scheme Empty) :
    Fresh.Mirrors f d (Ty.relabel f) σ.instantiate (σ.relabel f).instantiate := by
  intro c
  have hcount : c + d + ((σ.bound.map f).length : Int) = c + σ.bound.length + d := by
    rw [List.length_map]
    omega
  have hcopy := apply_pairedWith_relabel (σ := σ) hf
    (fun a _ b _ heq => f.injective heq) (fun _ _ => rfl) c
  exact congrArg₂ EStateM.Result.ok hcopy hcount

/-- The quantified variables of a closed scheme may be renamed apart. -/
theorem Closed.instantiate_relabel {σ : Scheme Empty} (hσ : σ.Closed) {g : String → String}
    (hg : Set.InjOn g {a | a ∈ σ.bound}) : (σ.relabel g).instantiate = σ.instantiate := by
  funext c
  have hcount : c + ((σ.bound.map g).length : Int) = c + σ.bound.length := by
    rw [List.length_map]
  have hcopy := apply_pairedWith_relabel (σ := σ) (f := id) (g := g) (d := 0) (by simp)
    (fun a ha b hb heq => hg (closed_iff.1 hσ a ha) hb heq) (fun a ha => absurd ha (hσ a)) c
  rw [Int.add_zero] at hcopy
  exact congrArg₂ EStateM.Result.ok (hcopy.trans (Ty.inst_self _)) hcount

end Scheme

/-- The types of operators mirror each other, with other fresh variables. -/
theorem Primitive.type_mirrors {f : String → String} {d : Int}
    (hf : ∀ number, f (typeVarName number) = typeVarName (number + d)) (p : Primitive) :
    Fresh.Mirrors f d (Ty.relabel f) p.type p.type := by
  -- the type takes two variables at most, and is put together from them
  cases p <;> first
    | exact .pure rfl
    | exact (Fresh.Mirrors.var hf).bind fun a => .pure rfl
    | exact (Fresh.Mirrors.var hf).bind fun a => (Fresh.Mirrors.var hf).bind fun b => .pure rfl

/-! ## Inference from another number on -/

namespace Expr

/-- What inference does in an environment, it does from another number on in the renamed
environment. -/
def Relocates (f : String → String) (d : Int) (e : Expr) : Prop :=
  ∀ Γ : Env Empty, Fresh.Mirrors f d (Typed.relabel f) (e.infer Γ) (e.infer (Γ.relabel f))

variable {f : String ↪ String} {d : Int}

-- the equations that the proofs below rewrite with
/-- List elements mirror each other if each of them does. -/
theorem inferElements_relabel {es : List Expr} (hes : ∀ e ∈ es, Relocates f d e)
    (Γ : Env Empty) (element : MonoTy) :
    Fresh.Mirrors f d (List.map (Constraint.relabel f)) (inferElements Γ element es)
      (inferElements (Γ.relabel f) (element.relabel f) es) := by
  induction es with
  | nil =>
      rw [inferElements, inferElements]
      exact .pure rfl
  | cons e es ih =>
      rw [inferElements, inferElements]
      refine (hes e List.mem_cons_self Γ).bind fun t => ?_
      refine (ih fun e he => hes e (List.mem_cons_of_mem _ he)).bind fun C => .pure ?_
      rw [List.map_append]
      rfl

/-- Inference from another number on. -/
theorem infer_relabel (hf : ∀ number, f (typeVarName number) = typeVarName (number + d))
    (e : Expr) : Relocates f d e := by
  have hvar : Fresh.Mirrors f d (Ty.relabel f) Fresh.var Fresh.var := .var hf
  induction e with
  | int n =>
      intro Γ
      rw [infer, infer]
      exact .pure rfl
  | bool b =>
      intro Γ
      rw [infer, infer]
      exact .pure rfl
  | var x =>
      intro Γ
      rw [infer, infer, Env.get?_relabel]
      cases Γ.get? x with
      | none => exact .throw rfl
      | some σ =>
          exact (σ.instantiate_mirrors hf).bind fun t => .pure rfl
  | prim p =>
      intro Γ
      rw [infer, infer]
      exact (p.type_mirrors hf).bind fun t => .pure rfl
  | hole =>
      intro Γ
      rw [infer, infer]
      exact .throw rfl
  | lam x body ih =>
      intro Γ
      rw [infer, infer]
      refine hvar.bind fun a => ?_
      have hbody := ih (Γ.insert x (.mono a))
      rw [← Env.insert_relabel] at hbody
      exact hbody.bind fun b => .pure rfl
  | app function argument ihf iha =>
      intro Γ
      rw [infer, infer]
      refine (ihf Γ).bind fun r => (iha Γ).bind fun a => hvar.bind fun result => .pure ?_
      simp [Typed.relabel, Constraint.relabel]
  | letIn x value body ihv ihb =>
      intro Γ
      rw [infer, infer]
      refine (ihv Γ).bind fun v => ?_
      refine (Fresh.Mirrors.lift (v.bindIn_relabel f Γ x)).bind fun Γ' => ?_
      refine (ihb Γ').bind fun b => .pure ?_
      simp [Typed.relabel]
  | ifThenElse test onTrue onFalse iht iha ihb =>
      intro Γ
      rw [infer, infer]
      refine (iht Γ).bind fun t => (iha Γ).bind fun a => (ihb Γ).bind fun b => .pure ?_
      simp [Typed.relabel, Constraint.relabel]
  | fix body ih =>
      intro Γ
      rw [infer, infer]
      refine (ih Γ).bind fun b => hvar.bind fun result => .pure ?_
      simp [Typed.relabel, Constraint.relabel]
  | list es ih =>
      intro Γ
      rw [infer, infer]
      refine hvar.bind fun whole => hvar.bind fun element => ?_
      refine (inferElements_relabel ih Γ element).bind fun C => .pure ?_
      simp [Typed.relabel, Constraint.relabel]

end Expr

end LetPoly
