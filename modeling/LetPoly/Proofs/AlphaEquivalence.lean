import LetPoly.Proofs.Expressions
import Mathlib.Data.List.Basic

/-!
# Renaming of bound names

Two expressions are alpha-equivalent when they differ in the names of parameters and local
definitions only.  They are compared side by side, with a relation between the names that
stand for each other: equality at the top, and behind a pair of binders the names they bind
stand for each other and for nothing else.

The relation is a parameter, so that one notion serves two purposes.  With equality it is
alpha-equivalence.  With equality of the names that an expression uses, it compares an
expression with itself in two contexts that differ in what the expression does not mention.

Main results:

- Theorem {lit}`Expr.sameUpTo_self`: an expression is compared with itself by the names that
  it uses and does not bind.
- Theorem {lit}`Expr.alphaEq_equivalence`: alpha-equivalence is an equivalence relation.
- Theorems {lit}`Expr.alphaEq_lam_rename` and {lit}`Expr.alphaEq_letIn_rename`: a bound name may
  be replaced by one that does not occur.
-/

namespace LetPoly

/-- Names that stand for each other behind two binders: the bound names do, and other names do
if they did before. -/
def UnderBinders (R : String → String → Prop) (x y : String) (a b : String) : Prop :=
  (a = x ∧ b = y) ∨ (a ≠ x ∧ b ≠ y ∧ R a b)

theorem UnderBinders.mono {R S : String → String → Prop} {x y a b : String}
    (h : UnderBinders R x y a b) (hRS : R a b → S a b) : UnderBinders S x y a b :=
  h.imp_right fun ⟨ha, hb, hab⟩ => ⟨ha, hb, hRS hab⟩

/-- Behind binders that changed sides, what stands for each other has changed sides. -/
theorem UnderBinders.symm {R S : String → String → Prop} {x y a b : String}
    (hRS : ∀ a b, R a b → S b a) (h : UnderBinders R x y a b) : UnderBinders S y x b a := by
  rcases h with ⟨rfl, rfl⟩ | ⟨ha, hb, hab⟩
  · exact Or.inl ⟨rfl, rfl⟩
  · exact Or.inr ⟨hb, ha, hRS a b hab⟩

/-- A name stands for itself behind a binder if it is bound there or did so before. -/
theorem underBinders_self {R : String → String → Prop} {x a : String}
    (h : a ≠ x → R a a) : UnderBinders R x x a a := by
  by_cases hax : a = x
  · exact Or.inl ⟨hax, hax⟩
  · exact Or.inr ⟨hax, hax, h hax⟩

namespace Expr

/-- Two expressions are built in the same way, and the names in the same places stand for each
other: free ones by a relation, bound ones because they are bound in the same place. -/
inductive SameUpTo : (String → String → Prop) → Expr → Expr → Prop where
  | var {R : String → String → Prop} {x y : String} (h : R x y) :
      SameUpTo R (.var x) (.var y)
  | app {R : String → String → Prop} {f a f' a' : Expr} (hf : SameUpTo R f f')
      (ha : SameUpTo R a a') : SameUpTo R (.app f a) (.app f' a')
  | lam {R : String → String → Prop} {x y : String} {body body' : Expr}
      (hbody : SameUpTo (UnderBinders R x y) body body') :
      SameUpTo R (.lam x body) (.lam y body')
  | letIn {R : String → String → Prop} {x y : String} {value body value' body' : Expr}
      (hvalue : SameUpTo R value value')
      (hbody : SameUpTo (UnderBinders R x y) body body') :
      SameUpTo R (.letIn x value body) (.letIn y value' body')
  | int {R : String → String → Prop} (n : Int) : SameUpTo R (.int n) (.int n)
  | bool {R : String → String → Prop} (b : Bool) : SameUpTo R (.bool b) (.bool b)
  | ifThenElse {R : String → String → Prop} {test onTrue onFalse test' onTrue' onFalse' : Expr}
      (htest : SameUpTo R test test') (htrue : SameUpTo R onTrue onTrue')
      (hfalse : SameUpTo R onFalse onFalse') :
      SameUpTo R (.ifThenElse test onTrue onFalse) (.ifThenElse test' onTrue' onFalse')
  | fix {R : String → String → Prop} {body body' : Expr} (hbody : SameUpTo R body body') :
      SameUpTo R (.fix body) (.fix body')
  | list {R : String → String → Prop} {es es' : List Expr} (hlength : es.length = es'.length)
      (hes : ∀ (i : Nat) e e', es[i]? = some e → es'[i]? = some e' → SameUpTo R e e') :
      SameUpTo R (.list es) (.list es')
  | prim {R : String → String → Prop} (p : Primitive) : SameUpTo R (.prim p) (.prim p)
  | hole {R : String → String → Prop} : SameUpTo R .hole .hole

/-- Two expressions differ in the names of parameters and local definitions only. -/
def AlphaEq (e e' : Expr) : Prop :=
  SameUpTo (· = ·) e e'

/-! ## Comparison of expressions -/

namespace SameUpTo

variable {R S T : String → String → Prop} {e e' e'' : Expr}

/-- A weaker relation between names compares as much. -/
theorem mono (h : SameUpTo R e e') (hRS : ∀ a b, R a b → S a b) : SameUpTo S e e' := by
  induction h generalizing S with
  | var h => exact .var (hRS _ _ h)
  | app _ _ ihf iha => exact .app (ihf hRS) (iha hRS)
  | lam _ ih => exact .lam (ih fun a b hab => hab.mono (hRS a b))
  | letIn _ _ ihv ihb => exact .letIn (ihv hRS) (ihb fun a b hab => hab.mono (hRS a b))
  | int n => exact .int n
  | bool b => exact .bool b
  | ifThenElse _ _ _ iht iha ihb => exact .ifThenElse (iht hRS) (iha hRS) (ihb hRS)
  | fix _ ih => exact .fix (ih hRS)
  | list hlength _ ih => exact .list hlength fun i e e' he he' => ih i e e' he he' hRS
  | prim p => exact .prim p
  | hole => exact .hole

/-- The comparison may be read from right to left. -/
theorem symm (h : SameUpTo R e e') (hRS : ∀ a b, R a b → S b a) : SameUpTo S e' e := by
  induction h generalizing S with
  | var h => exact .var (hRS _ _ h)
  | app _ _ ihf iha => exact .app (ihf hRS) (iha hRS)
  | lam _ ih => exact .lam (ih fun a b => UnderBinders.symm hRS)
  | letIn _ _ ihv ihb => exact .letIn (ihv hRS) (ihb fun a b => UnderBinders.symm hRS)
  | int n => exact .int n
  | bool b => exact .bool b
  | ifThenElse _ _ _ iht iha ihb => exact .ifThenElse (iht hRS) (iha hRS) (ihb hRS)
  | fix _ ih => exact .fix (ih hRS)
  | list hlength _ ih => exact .list hlength.symm fun i e e' he he' => ih i e' e he' he hRS
  | prim p => exact .prim p
  | hole => exact .hole

/-- Two comparisons may be put together. -/
theorem trans (h : SameUpTo R e e') (h' : SameUpTo S e' e'')
    (hRS : ∀ a b d, R a b → S b d → T a d) : SameUpTo T e e'' := by
  -- the name in the middle is bound on both sides or on neither
  have hunder : ∀ {R S T : String → String → Prop} {x y z : String},
      (∀ a b d, R a b → S b d → T a d) → ∀ a b d, UnderBinders R x y a b →
      UnderBinders S y z b d → UnderBinders T x z a d := by
    rintro R S T x y z hRS a b d (⟨rfl, rfl⟩ | ⟨ha, hb, hab⟩) (⟨hb', rfl⟩ | ⟨hb', hd, hbd⟩)
    · exact Or.inl ⟨rfl, rfl⟩
    · exact absurd rfl hb'
    · exact absurd hb' hb
    · exact Or.inr ⟨ha, hd, hRS a b d hab hbd⟩
  induction h generalizing S T e'' with
  | var h =>
      cases h' with
      | var h' => exact .var (hRS _ _ _ h h')
  | app _ _ ihf iha =>
      cases h' with
      | app hf ha => exact .app (ihf hf hRS) (iha ha hRS)
  | lam _ ih =>
      cases h' with
      | lam hbody => exact .lam (ih hbody (hunder hRS))
  | letIn _ _ ihv ihb =>
      cases h' with
      | letIn hvalue hbody => exact .letIn (ihv hvalue hRS) (ihb hbody (hunder hRS))
  | int n =>
      cases h' with
      | int => exact .int n
  | bool b =>
      cases h' with
      | bool => exact .bool b
  | ifThenElse _ _ _ iht iha ihb =>
      cases h' with
      | ifThenElse ht ha hb => exact .ifThenElse (iht ht hRS) (iha ha hRS) (ihb hb hRS)
  | fix _ ih =>
      cases h' with
      | fix hbody => exact .fix (ih hbody hRS)
  | list hlength _ ih =>
      cases h' with
      | list hlength' hes' =>
          refine .list (hlength.trans hlength') fun i e e'' he he'' => ?_
          have hi : i < _ := (List.getElem?_eq_some_iff.1 he).1
          rw [hlength] at hi
          have he' := List.getElem?_eq_getElem hi
          exact ih i e _ he he' (hes' i _ e'' he' he'') hRS
  | prim p =>
      cases h' with
      | prim => exact .prim p
  | hole =>
      cases h' with
      | hole => exact .hole

end SameUpTo

/-- An expression is compared with itself by the names that it uses and does not bind. -/
theorem sameUpTo_self {R : String → String → Prop} {e : Expr} (h : ∀ a ∈ e.freeVars, R a a) :
    SameUpTo R e e := by
  induction e generalizing R with
  | var x => exact .var (h x (by simp))
  | app f a ihf iha =>
      exact .app (ihf fun b hb => h b (by simp [hb])) (iha fun b hb => h b (by simp [hb]))
  | lam x body ih =>
      refine .lam (ih fun a ha => underBinders_self fun hax => ?_)
      exact h a (mem_freeVars_lam.2 ⟨ha, hax⟩)
  | letIn x value body ihv ihb =>
      refine .letIn (ihv fun a ha => h a (mem_freeVars_letIn.2 (Or.inl ha))) ?_
      refine ihb fun a ha => underBinders_self fun hax => ?_
      exact h a (mem_freeVars_letIn.2 (Or.inr ⟨ha, hax⟩))
  | int n => exact .int n
  | bool b => exact .bool b
  | ifThenElse test onTrue onFalse iht iha ihb =>
      exact .ifThenElse (iht fun a ha => h a (by simp [ha])) (iha fun a ha => h a (by simp [ha]))
        (ihb fun a ha => h a (by simp [ha]))
  | fix body ih => exact .fix (ih fun a ha => h a (by simp [ha]))
  | list es ih =>
      refine .list rfl fun i e e' he he' => ?_
      have hmem : e ∈ es := List.mem_of_getElem? he
      cases he.symm.trans he'
      exact ih e hmem fun a ha => h a (mem_freeVars_list.2 ⟨e, hmem, ha⟩)
  | prim p => exact .prim p
  | hole => exact .hole

/-- Alpha-equivalence is an equivalence relation. -/
theorem alphaEq_equivalence : Equivalence AlphaEq where
  refl _ := sameUpTo_self fun _ _ => rfl
  symm h := h.symm fun _ _ hab => hab.symm
  trans h h' := h.trans h' fun _ _ _ hab hbd => hab.trans hbd

/-- Behind one binder every name stands for itself. -/
theorem AlphaEq.underBinders {e e' : Expr} (h : AlphaEq e e') (x : String) :
    SameUpTo (UnderBinders (· = ·) x x) e e' := by
  refine h.mono fun a b hab => ?_
  subst hab
  exact underBinders_self fun _ => rfl

/-- Alpha-equivalence goes into the body of a function. -/
theorem AlphaEq.lam {body body' : Expr} (h : AlphaEq body body') (x : String) :
    AlphaEq (.lam x body) (.lam x body') :=
  SameUpTo.lam (h.underBinders x)

/-- Alpha-equivalence goes into the value and the scope of a local definition. -/
theorem AlphaEq.letIn {value value' body body' : Expr} (hvalue : AlphaEq value value')
    (hbody : AlphaEq body body') (x : String) :
    AlphaEq (.letIn x value body) (.letIn x value' body') :=
  SameUpTo.letIn hvalue (hbody.underBinders x)

/-! ## Renaming a binder -/

mutual

/-- Replaces a name by another one where it is not bound. -/
def rename (x y : String) : Expr → Expr
  | var name => var (if name = x then y else name)
  | app function argument => app (function.rename x y) (argument.rename x y)
  | lam parameter body => lam parameter (if parameter = x then body else body.rename x y)
  | letIn name value body =>
      letIn name (value.rename x y) (if name = x then body else body.rename x y)
  | int value => int value
  | bool value => bool value
  | ifThenElse test onTrue onFalse =>
      ifThenElse (test.rename x y) (onTrue.rename x y) (onFalse.rename x y)
  | fix body => fix (body.rename x y)
  | list elements => list (renameList x y elements)
  | prim primitive => prim primitive
  | hole => hole

/-- Replaces a name by another one in some expressions. -/
def renameList (x y : String) : List Expr → List Expr
  | [] => []
  | e :: rest => e.rename x y :: renameList x y rest

end

theorem renameList_eq_map (x y : String) (es : List Expr) :
    renameList x y es = es.map (rename x y) := by
  induction es with
  | nil => rfl
  | cons e es ih => rw [renameList, ih, List.map_cons]

/-- An expression is compared with its renaming by the names that are replaced, if the new name
does not occur in it. -/
theorem sameUpTo_rename {R : String → String → Prop} {x y : String} {e : Expr}
    (hy : y ∉ e.names) (h : ∀ a ∈ e.freeVars, R a (if a = x then y else a)) :
    SameUpTo R e (e.rename x y) := by
  -- a body stops the renaming where its binder has the replaced name
  have hbody : ∀ {R : String → String → Prop} {z : String} {body : Expr}, y ≠ z →
      (∀ a ∈ body.freeVars, a ≠ z → R a (if a = x then y else a)) →
      (∀ {S : String → String → Prop},
        (∀ a ∈ body.freeVars, S a (if a = x then y else a)) →
        SameUpTo S body (body.rename x y)) →
      SameUpTo (UnderBinders R z z) body (if z = x then body else body.rename x y) := by
    intro R z body hyz hR ih
    split_ifs with hzx
    · refine sameUpTo_self fun a ha => underBinders_self fun haz => ?_
      have hRa := hR a ha haz
      rwa [if_neg (hzx ▸ haz)] at hRa
    · refine ih fun a ha => ?_
      by_cases haz : a = z
      · rw [if_neg (haz ▸ hzx)]
        exact Or.inl ⟨haz, haz⟩
      · refine Or.inr ⟨haz, ?_, hR a ha haz⟩
        split_ifs
        · exact hyz
        · exact haz
  induction e generalizing R with
  | var z => exact .var (h z (by simp))
  | app f a ihf iha =>
      rw [names, List.mem_append, not_or] at hy
      exact .app (ihf hy.1 fun b hb => h b (by simp [hb])) (iha hy.2 fun b hb => h b (by simp [hb]))
  | lam z body ih =>
      rw [names, List.mem_cons, not_or] at hy
      refine .lam (hbody hy.1 (fun a ha haz => ?_) fun hS => ih hy.2 hS)
      exact h a (mem_freeVars_lam.2 ⟨ha, haz⟩)
  | letIn z value body ihv ihb =>
      rw [names, List.mem_cons, List.mem_append, not_or, not_or] at hy
      refine .letIn (ihv hy.2.1 fun a ha => h a (mem_freeVars_letIn.2 (Or.inl ha))) ?_
      refine hbody hy.1 (fun a ha haz => ?_) fun hS => ihb hy.2.2 hS
      exact h a (mem_freeVars_letIn.2 (Or.inr ⟨ha, haz⟩))
  | int n => exact .int n
  | bool b => exact .bool b
  | ifThenElse test onTrue onFalse iht iha ihb =>
      simp only [names, List.mem_append, not_or] at hy
      exact .ifThenElse (iht hy.1.1 fun a ha => h a (by simp [ha]))
        (iha hy.1.2 fun a ha => h a (by simp [ha])) (ihb hy.2 fun a ha => h a (by simp [ha]))
  | fix body ih => exact .fix (ih hy fun a ha => h a (by simp [ha]))
  | list es ih =>
      rw [rename, renameList_eq_map]
      refine .list (by rw [List.length_map]) fun i e e' he he' => ?_
      rw [List.getElem?_map, he, Option.map_some, Option.some.injEq] at he'
      subst he'
      have hmem : e ∈ es := List.mem_of_getElem? he
      refine ih e hmem (fun hye => hy ?_) fun a ha => h a (mem_freeVars_list.2 ⟨e, hmem, ha⟩)
      exact mem_namesList.2 ⟨e, hmem, hye⟩
  | prim p => exact .prim p
  | hole => exact .hole

/-- The names of a body stand for each other behind its binder and behind a new one. -/
theorem underBinders_rename {x y a : String} {body : Expr} (hy : y ∉ body.names)
    (ha : a ∈ body.freeVars) : UnderBinders (· = ·) x y a (if a = x then y else a) := by
  by_cases hax : a = x
  · exact Or.inl ⟨hax, if_pos hax⟩
  · rw [if_neg hax]
    exact Or.inr ⟨hax, fun hay => hy (hay ▸ freeVars_subset_names ha), rfl⟩

/-- A parameter may be given a name that does not occur in the body. -/
theorem alphaEq_lam_rename {x y : String} {body : Expr} (hy : y ∉ body.names) :
    AlphaEq (.lam x body) (.lam y (body.rename x y)) :=
  SameUpTo.lam (sameUpTo_rename hy fun _ ha => underBinders_rename hy ha)

/-- A local definition may be given a name that does not occur in its scope. -/
theorem alphaEq_letIn_rename {x y : String} {value body : Expr} (hy : y ∉ body.names) :
    AlphaEq (.letIn x value body) (.letIn y value (body.rename x y)) :=
  SameUpTo.letIn (sameUpTo_self fun _ _ => rfl)
    (sameUpTo_rename hy fun _ ha => underBinders_rename hy ha)

end Expr

end LetPoly
