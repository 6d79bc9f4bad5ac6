import LetPoly.Proofs.Expressions
import LetPoly.Proofs.Schemes

/-!
# Declarative typing

The types of expressions by rules, without an algorithm: a name takes any instance of its
scheme, a parameter has one type, and a local definition may quantify the variables of its
value's type that are not free in the environment.

The rules come in two forms.  In the first, {lit}`Expr.HasType`, an environment gives names
their schemes.  In the second, {lit}`Expr.TypedBy`, each name comes with the set of types at
which it may be used.  The second form has no schemes and so no variables that could be
captured; it is the one that completeness of inference and the theorems on evaluation start
from.

Both forms have a side condition on fixed points as a parameter, so that one development
serves the full language, fixed points of functions, and the language without fixed points.

Main results:

- Theorem {lit}`Expr.TypedBy.inst`: typing is kept by instantiation of type variables and
  depends on the free names of an expression only.
- Theorem {lit}`Expr.HasTypeWith.typedBy`: what can be typed with schemes can be typed with
  sets of uses.
-/

namespace LetPoly

/-- The scheme of an operator. -/
def Primitive.signature : Primitive → Scheme Empty
  | .add | .sub | .mul => .mono (.fn .int (.fn .int .int))
  | .eql => .mono (.fn .int (.fn .int .bool))
  | .null => ⟨["a"], .fn (.list (.var "a")) .bool⟩
  | .map =>
      ⟨["a", "b"], .fn (.fn (.var "a") (.var "b")) (.fn (.list (.var "a")) (.list (.var "b")))⟩
  | .foldl =>
      ⟨["a", "b"], .fn (.fn (.var "b") (.fn (.var "a") (.var "b")))
        (.fn (.var "b") (.fn (.list (.var "a")) (.var "b")))⟩
  | .pair => ⟨["a", "b"], .fn (.var "a") (.fn (.var "b") (.pair (.var "a") (.var "b")))⟩
  | .fst => ⟨["a", "b"], .fn (.pair (.var "a") (.var "b")) (.var "a")⟩
  | .snd => ⟨["a", "b"], .fn (.pair (.var "a") (.var "b")) (.var "b")⟩
  | .cons => ⟨["a"], .fn (.var "a") (.fn (.list (.var "a")) (.list (.var "a")))⟩
  | .nil => ⟨["a"], .list (.var "a")⟩

namespace Expr

/-- An expression has a type in an environment, where fixed points are restricted to bodies
and types with a side condition. -/
inductive HasTypeWith (fixable : Expr → MonoTy → Prop) : Env Empty → Expr → MonoTy → Prop where
  | int {Γ : Env Empty} {n : Int} : HasTypeWith fixable Γ (.int n) .int
  | bool {Γ : Env Empty} {b : Bool} : HasTypeWith fixable Γ (.bool b) .bool
  | var {Γ : Env Empty} {x : String} {σ : Scheme Empty} {t : MonoTy}
      (hx : Γ.get? x = some σ) (ht : σ.Instance t) : HasTypeWith fixable Γ (.var x) t
  | lam {Γ : Env Empty} {x : String} {body : Expr} {t u : MonoTy}
      (hbody : HasTypeWith fixable (Γ.insert x (.mono t)) body u) :
      HasTypeWith fixable Γ (.lam x body) (.fn t u)
  | app {Γ : Env Empty} {f a : Expr} {t u : MonoTy}
      (hf : HasTypeWith fixable Γ f (.fn t u)) (ha : HasTypeWith fixable Γ a t) :
      HasTypeWith fixable Γ (.app f a) u
  | letIn {Γ : Env Empty} {x : String} {value body : Expr} {vars : List String}
      {t u : MonoTy} (hvalue : HasTypeWith fixable Γ value t)
      (hvars : ∀ a ∈ vars, a ∈ t.freeVars ∧ ¬ a ∈ Γ.freeVars)
      (hbody : HasTypeWith fixable (Γ.insert x ⟨vars, t⟩) body u) :
      HasTypeWith fixable Γ (.letIn x value body) u
  | ifThenElse {Γ : Env Empty} {test onTrue onFalse : Expr} {t : MonoTy}
      (htest : HasTypeWith fixable Γ test .bool) (htrue : HasTypeWith fixable Γ onTrue t)
      (hfalse : HasTypeWith fixable Γ onFalse t) :
      HasTypeWith fixable Γ (.ifThenElse test onTrue onFalse) t
  | fix {Γ : Env Empty} {body : Expr} {t : MonoTy} (hfix : fixable body t)
      (hbody : HasTypeWith fixable Γ body (.fn t t)) : HasTypeWith fixable Γ (.fix body) t
  | list {Γ : Env Empty} {elements : List Expr} {t : MonoTy}
      (helements : ∀ e ∈ elements, HasTypeWith fixable Γ e t) :
      HasTypeWith fixable Γ (.list elements) (.list t)
  | prim {Γ : Env Empty} {p : Primitive} {t : MonoTy} (ht : p.signature.Instance t) :
      HasTypeWith fixable Γ (.prim p) t

/-- An expression has a type in an environment. -/
abbrev HasType (Γ : Env Empty) (e : Expr) (t : MonoTy) : Prop :=
  HasTypeWith (fun _ _ => True) Γ e t

/-- An expression has a type when each name may be used at the types of a set. -/
inductive TypedBy (fixable : Expr → MonoTy → Prop) :
    (String → Set MonoTy) → Expr → MonoTy → Prop where
  | int {G : String → Set MonoTy} {n : Int} : TypedBy fixable G (.int n) .int
  | bool {G : String → Set MonoTy} {b : Bool} : TypedBy fixable G (.bool b) .bool
  | var {G : String → Set MonoTy} {x : String} {t : MonoTy} (ht : t ∈ G x) :
      TypedBy fixable G (.var x) t
  | lam {G : String → Set MonoTy} {x : String} {body : Expr} {t u : MonoTy}
      (hbody : TypedBy fixable (Function.update G x {t}) body u) :
      TypedBy fixable G (.lam x body) (.fn t u)
  | app {G : String → Set MonoTy} {f a : Expr} {t u : MonoTy}
      (hf : TypedBy fixable G f (.fn t u)) (ha : TypedBy fixable G a t) :
      TypedBy fixable G (.app f a) u
  | letIn {G : String → Set MonoTy} {x : String} {value body : Expr} {S : Set MonoTy}
      {u : MonoTy} (hnonempty : S.Nonempty) (hvalue : ∀ t ∈ S, TypedBy fixable G value t)
      (hbody : TypedBy fixable (Function.update G x S) body u) :
      TypedBy fixable G (.letIn x value body) u
  | ifThenElse {G : String → Set MonoTy} {test onTrue onFalse : Expr} {t : MonoTy}
      (htest : TypedBy fixable G test .bool) (htrue : TypedBy fixable G onTrue t)
      (hfalse : TypedBy fixable G onFalse t) :
      TypedBy fixable G (.ifThenElse test onTrue onFalse) t
  | fix {G : String → Set MonoTy} {body : Expr} {t : MonoTy} (hfix : fixable body t)
      (hbody : TypedBy fixable G body (.fn t t)) : TypedBy fixable G (.fix body) t
  | list {G : String → Set MonoTy} {elements : List Expr} {t : MonoTy}
      (helements : ∀ e ∈ elements, TypedBy fixable G e t) :
      TypedBy fixable G (.list elements) (.list t)
  | prim {G : String → Set MonoTy} {p : Primitive} {t : MonoTy}
      (ht : p.signature.Instance t) : TypedBy fixable G (.prim p) t

end Expr

/-- The schemes of the operators are closed. -/
theorem Primitive.signature_closed (p : Primitive) : p.signature.Closed := by
  rw [Scheme.closed_iff]
  cases p <;> simp [signature, Scheme.mono, Ty.int, Ty.bool]
  tauto

/-- An operator stays usable at every instance of a type at which it is usable. -/
theorem Primitive.instance_inst {p : Primitive} {t : MonoTy} (θ : Assignment)
    (h : p.signature.Instance t) : p.signature.Instance (t.inst θ) := by
  rw [Scheme.instance_iff] at h ⊢
  rw [p.signature_closed.instances_eq _ fun a => (Ty.var a).inst θ]
  exact Scheme.inst_mem_instances h

namespace Expr

variable {fixable : Expr → MonoTy → Prop}

/-- Typing is kept by instantiation of type variables, where the uses of the free names
are instantiated as well. -/
theorem TypedBy.inst {G H : String → Set MonoTy} {e : Expr} {t : MonoTy} {θ : Assignment}
    (h : TypedBy fixable G e t)
    (hfix : ∀ body u, fixable body u → fixable body (u.inst θ))
    (huses : ∀ x ∈ e.freeVars, ∀ u ∈ G x, u.inst θ ∈ H x) :
    TypedBy fixable H e (t.inst θ) := by
  induction h generalizing H with
  | int => exact .int
  | bool => exact .bool
  | var ht => exact .var (huses _ (by simp) _ ht)
  | @lam G x body t u _ ih =>
      refine .lam (ih fun y hy v hv => ?_)
      by_cases heq : y = x
      · subst heq
        rw [Function.update_self] at hv ⊢
        rw [Set.mem_singleton_iff] at hv
        rw [hv]
        rfl
      · rw [Function.update_of_ne heq] at hv ⊢
        exact huses y (by simp [hy, heq]) v hv
  | app _ _ ih₁ ih₂ =>
      refine .app (ih₁ fun y hy => ?_) (ih₂ fun y hy => ?_)
      · exact huses y (by simp [hy])
      · exact huses y (by simp [hy])
  | @letIn G x value body S u hnonempty _ _ ih₁ ih₂ =>
      -- the instances of the uses of the name are its uses after instantiation
      obtain ⟨w, hw⟩ := hnonempty
      refine .letIn (S := {v | ∃ u ∈ S, u.inst θ = v}) ⟨w.inst θ, w, hw, rfl⟩ ?_ ?_
      · rintro _ ⟨v, hv, rfl⟩
        exact ih₁ v hv fun y hy => huses y (by simp [hy])
      · refine ih₂ fun y hy v hv => ?_
        by_cases heq : y = x
        · subst heq
          rw [Function.update_self] at hv ⊢
          exact ⟨v, hv, rfl⟩
        · rw [Function.update_of_ne heq] at hv ⊢
          exact huses y (by simp [hy, heq]) v hv
  | ifThenElse _ _ _ ih₁ ih₂ ih₃ =>
      refine .ifThenElse (ih₁ fun y hy => ?_) (ih₂ fun y hy => ?_) (ih₃ fun y hy => ?_)
      · exact huses y (by simp [hy])
      · exact huses y (by simp [hy])
      · exact huses y (by simp [hy])
  | fix hbody _ ih => exact .fix (hfix _ _ hbody) (ih fun y hy => huses y (by simp [hy]))
  | list _ ih =>
      exact .list fun e he => ih e he fun y hy =>
        huses y (mem_freeVars_list.2 ⟨e, he, hy⟩)
  | prim ht => exact .prim (Primitive.instance_inst θ ht)

/-- Typing depends on the free names only, and more uses of these do no harm. -/
theorem TypedBy.weaken {G H : String → Set MonoTy} {e : Expr} {t : MonoTy}
    (h : TypedBy fixable G e t) (huses : ∀ x ∈ e.freeVars, G x ⊆ H x) :
    TypedBy fixable H e t := by
  rw [← Ty.inst_self t]
  refine h.inst (fun body u hu => ?_) fun x hx u hu => ?_
  · rwa [Ty.inst_self]
  · rw [Ty.inst_self]
    exact huses x hx hu

/-- No part of a typed expression is missing. -/
theorem TypedBy.hasHole_eq_false {G : String → Set MonoTy} {e : Expr} {t : MonoTy}
    (h : TypedBy fixable G e t) : e.hasHole = false := by
  induction h with
  | letIn hnonempty _ _ ih₁ ih₂ =>
      obtain ⟨t, ht⟩ := hnonempty
      simp [hasHole, ih₁ t ht, ih₂]
  | list _ ih =>
      rw [hasHole]
      exact hasHoleList_eq_false.2 ih
  | _ => simp_all [hasHole]

/-- Every free name of a typed expression may be used at some type. -/
theorem TypedBy.exists_use {G : String → Set MonoTy} {e : Expr} {t : MonoTy}
    (h : TypedBy fixable G e t) {y : String} (hy : y ∈ e.freeVars) : (G y).Nonempty := by
  induction h with
  | int | bool | prim _ => simp [freeVars] at hy
  | var ht =>
      rw [mem_freeVars_var] at hy
      exact ⟨_, hy ▸ ht⟩
  | lam _ ih =>
      obtain ⟨hbody, hne⟩ := mem_freeVars_lam.1 hy
      simpa [hne] using ih hbody
  | app _ _ ih₁ ih₂ => exact (mem_freeVars_app.1 hy).elim ih₁ ih₂
  | letIn hnonempty _ _ ih₁ ih₂ =>
      obtain ⟨s, hs⟩ := hnonempty
      rcases mem_freeVars_letIn.1 hy with hvalue | ⟨hbody, hne⟩
      · exact ih₁ s hs hvalue
      · simpa [hne] using ih₂ hbody
  | ifThenElse _ _ _ ih₁ ih₂ ih₃ =>
      exact (mem_freeVars_ifThenElse.1 hy).elim ih₁ fun hy => hy.elim ih₂ ih₃
  | fix _ _ ih => exact ih (mem_freeVars_fix.1 hy)
  | list _ ih =>
      obtain ⟨e, he, hmem⟩ := mem_freeVars_list.1 hy
      exact ih e he hmem

/-- What can be typed with schemes can be typed with the sets of their instances. -/
theorem HasTypeWith.typedBy {Γ : Env Empty} {e : Expr} {t : MonoTy}
    (h : HasTypeWith fixable Γ e t)
    (hfix : ∀ θ body u, fixable body u → fixable body (u.inst θ)) :
    TypedBy fixable (Γ.uses Ty.var) e t := by
  induction h with
  | int => exact .int
  | bool => exact .bool
  | var hx ht => exact .var ⟨_, hx, Scheme.instance_iff.1 ht⟩
  | lam _ ih =>
      rw [Env.uses_insert, Scheme.instances_mono, Ty.inst_self] at ih
      exact .lam ih
  | app _ _ ih₁ ih₂ => exact .app ih₁ ih₂
  | @letIn Γ x value body vars t u _ hvars _ ih₁ ih₂ =>
      rw [Env.uses_insert] at ih₂
      refine .letIn (Scheme.instances_nonempty _ _) (fun v hv => ?_) ih₂
      obtain ⟨η, rfl⟩ := hv
      -- an instance of the value's type leaves the free variables of the environment alone
      refine ih₁.inst (hfix _) fun y _ v hv => ?_
      have hsame : Γ.uses (fun a => (Ty.var a).inst (Assignment.overlay vars η Ty.var)) =
          Γ.uses Ty.var := by
        refine Env.uses_congr fun a ha => ?_
        exact Assignment.overlay_of_not_mem fun hmem => (hvars a hmem).2 ha
      obtain ⟨σ, hσ, hinst⟩ := hv
      rw [← hsame]
      exact ⟨σ, hσ, Scheme.inst_mem_instances hinst⟩
  | ifThenElse _ _ _ ih₁ ih₂ ih₃ => exact .ifThenElse ih₁ ih₂ ih₃
  | fix hbody _ ih => exact .fix hbody ih
  | list _ ih => exact .list ih
  | prim ht => exact .prim ht

end Expr

end LetPoly
