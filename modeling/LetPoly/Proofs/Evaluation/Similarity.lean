import LetPoly.Failure
import LetPoly.Proofs.AlphaEquivalence
import LetPoly.Proofs.Evaluation.Step

/-!
# Similar values

Evaluation gives out parameter names as it goes, so the functions that it makes depend on the
number at which it starts.  Two runs that start at different numbers give similar values: the
same data, with functions in the same places that do the same up to the names of their
parameters.

Bodies of functions are compared as in alpha-equivalence, by a relation between the names that
stand for each other.  Two things are special.  The names under a fixed point are not like those
of parameters that evaluation makes, since its unrolling is a function of such a parameter.
And an operator may be written in two ways, by itself or as a function of its arguments; whether
the second way is allowed is a parameter of the comparison.

Main results:

- Theorem {lit}`Expr.Similar.mono`: a comparison speaks about the free names alone.
- Theorem {lit}`Value.Similar.outline_eq`: similar values are the same as far as they can be
  seen.
- Theorem {lit}`EvalError.Similar.message_eq`: similar errors have the same wording.
-/

namespace LetPoly

/-- Lists are related if they are of one length and related in the same places. -/
theorem forall₂_iff_getElem? {α β : Type} {P : α → β → Prop} {as : List α} {bs : List β} :
    List.Forall₂ P as bs ↔
      as.length = bs.length ∧ ∀ (i : Nat) a b, as[i]? = some a → bs[i]? = some b → P a b := by
  rw [List.forall₂_iff_get]
  refine and_congr_right fun _ => ⟨fun h i a b ha hb => ?_, fun h i hi hi' => ?_⟩
  · obtain ⟨hi, rfl⟩ := List.getElem?_eq_some_iff.1 ha
    obtain ⟨hi', rfl⟩ := List.getElem?_eq_some_iff.1 hb
    exact h i hi hi'
  · exact h i _ _ (List.getElem?_eq_getElem hi) (List.getElem?_eq_getElem hi')

/-! ## What can be seen of a value -/

namespace Value

mutual

/-- A value with its functions blanked out: what can be seen of it. -/
def outline : Value → Value
  | int value => int value
  | bool value => bool value
  | list elements => list (outlineList elements)
  | pair first second => pair first.outline second.outline
  | closure _ _ _ => closure "" .hole []
  | hole => hole

/-- Some values with their functions blanked out. -/
def outlineList : List Value → List Value
  | [] => []
  | v :: rest => v.outline :: outlineList rest

end

theorem outlineList_eq_map (vs : List Value) : outlineList vs = vs.map outline := by
  induction vs with
  | nil => rfl
  | cons v vs ih => rw [outlineList, ih, List.map_cons]

mutual

/-- The text of a value shows its outline. -/
theorem render_outline : ∀ v : Value, v.outline.render = v.render
  | int _ => rfl
  | bool _ => rfl
  | list elements => by
      rw [outline, render, render, renderList_outlineList elements]
  | pair first second => by
      rw [outline, render, render, render_outline first, render_outline second]
  | closure _ _ _ => rfl
  | hole => rfl

theorem renderList_outlineList : ∀ vs : List Value, renderList (outlineList vs) = renderList vs
  | [] => rfl
  | v :: rest => by
      rw [outlineList, renderList, renderList, render_outline v, renderList_outlineList rest]

end

/-- Values that look the same have the same text, or none. -/
theorem render_eq_of_outline_eq {v w : Value} (h : v.outline = w.outline) :
    v.render = w.render := by
  rw [← render_outline v, h, render_outline]

end Value

/-! ## Similar expressions -/

namespace Expr

/-- The ways to write an operator: by itself or, where this is allowed, as a function of as
many arguments as it takes. -/
inductive Denotes (curried : Prop) (p : Primitive) : Expr → Prop where
  | prim : Denotes curried p (.prim p)
  | lams {x : String} {rest : List String} (hcurried : curried)
      (hlength : (x :: rest).length = p.arity) (hnodup : (x :: rest).Nodup) :
      Denotes curried p ((x :: rest).foldr .lam (saturation p (x :: rest)))

/-- Two expressions are built in the same way, operators apart, which may be written in
different ways.  Names in the same places stand for each other, and under fixed points they are
not like those of parameters that evaluation makes. -/
inductive Similar (curried : Prop) : (String → String → Prop) → Expr → Expr → Prop where
  | var {R : String → String → Prop} {x y : String} (h : R x y) :
      Similar curried R (.var x) (.var y)
  | app {R : String → String → Prop} {f a f' a' : Expr} (hf : Similar curried R f f')
      (ha : Similar curried R a a') : Similar curried R (.app f a) (.app f' a')
  | lam {R : String → String → Prop} {x y : String} {body body' : Expr}
      (hbody : Similar curried (UnderBinders R x y) body body') :
      Similar curried R (.lam x body) (.lam y body')
  | letIn {R : String → String → Prop} {x y : String} {value body value' body' : Expr}
      (hvalue : Similar curried R value value')
      (hbody : Similar curried (UnderBinders R x y) body body') :
      Similar curried R (.letIn x value body) (.letIn y value' body')
  | int {R : String → String → Prop} (n : Int) : Similar curried R (.int n) (.int n)
  | bool {R : String → String → Prop} (b : Bool) : Similar curried R (.bool b) (.bool b)
  | ifThenElse {R : String → String → Prop} {test onTrue onFalse test' onTrue' onFalse' : Expr}
      (htest : Similar curried R test test') (htrue : Similar curried R onTrue onTrue')
      (hfalse : Similar curried R onFalse onFalse') :
      Similar curried R (.ifThenElse test onTrue onFalse) (.ifThenElse test' onTrue' onFalse')
  | fix {R : String → String → Prop} {body body' : Expr}
      (hbody : Similar curried (fun a b => R a b ∧ Unnumbered a ∧ Unnumbered b) body body') :
      Similar curried R (.fix body) (.fix body')
  | list {R : String → String → Prop} {es es' : List Expr} (hlength : es.length = es'.length)
      (hes : ∀ (i : Nat) e e', es[i]? = some e → es'[i]? = some e' → Similar curried R e e') :
      Similar curried R (.list es) (.list es')
  | operator {R : String → String → Prop} {p : Primitive} {e e' : Expr}
      (he : Denotes curried p e) (he' : Denotes curried p e') : Similar curried R e e'
  | hole {R : String → String → Prop} : Similar curried R .hole .hole

namespace Denotes

variable {curried : Prop} {p q : Primitive} {e : Expr}

/-- An operator in any spelling is whole. -/
theorem hasHole_eq_false (h : Denotes curried p e) : e.hasHole = false := by
  cases h with
  | prim => rfl
  | lams => simp only [hasHole_lams, hasHole_saturation]

/-- An operator that is written as itself is the one that is meant. -/
theorem eq_of_prim (h : Denotes curried p (.prim q)) : q = p := by
  cases h with
  | prim => rfl

/-- Where there is one way only to write an operator, it is written as itself. -/
theorem eq_prim (h : Denotes curried p e) (hcurried : ¬curried) : e = .prim p := by
  cases h with
  | prim => rfl
  | lams h => exact absurd h hcurried

end Denotes

namespace Similar

variable {curried : Prop} {R S : String → String → Prop} {e e' : Expr}

/-- A comparison speaks about the free names alone. -/
theorem mono (h : Similar curried R e e')
    (hRS : ∀ a b, a ∈ e.freeVars → b ∈ e'.freeVars → R a b → S a b) :
    Similar curried S e e' := by
  induction h generalizing S with
  | var h => exact .var (hRS _ _ (by simp) (by simp) h)
  | app _ _ ihf iha =>
      exact .app (ihf fun a b ha hb => hRS a b (by simp [ha]) (by simp [hb]))
        (iha fun a b ha hb => hRS a b (by simp [ha]) (by simp [hb]))
  | lam _ ih =>
      refine .lam (ih fun a b ha hb => Or.imp_right fun ⟨hax, hby, hab⟩ => ⟨hax, hby, ?_⟩)
      exact hRS a b (by simp [ha, hax]) (by simp [hb, hby]) hab
  | letIn _ _ ihv ihb =>
      refine .letIn (ihv fun a b ha hb => hRS a b (by simp [ha]) (by simp [hb])) ?_
      refine ihb fun a b ha hb => Or.imp_right fun ⟨hax, hby, hab⟩ => ⟨hax, hby, ?_⟩
      exact hRS a b (by simp [ha, hax]) (by simp [hb, hby]) hab
  | int n => exact .int n
  | bool b => exact .bool b
  | ifThenElse _ _ _ iht iha ihb =>
      exact .ifThenElse (iht fun a b ha hb => hRS a b (by simp [ha]) (by simp [hb]))
        (iha fun a b ha hb => hRS a b (by simp [ha]) (by simp [hb]))
        (ihb fun a b ha hb => hRS a b (by simp [ha]) (by simp [hb]))
  | fix _ ih =>
      refine .fix (ih fun a b ha hb => And.imp_left fun hab => ?_)
      exact hRS a b (by simp [ha]) (by simp [hb]) hab
  | list hlength _ ih =>
      refine .list hlength fun i e e' he he' => ih i e e' he he' fun a b ha hb => ?_
      exact hRS a b (mem_freeVars_list.2 ⟨e, List.mem_of_getElem? he, ha⟩)
        (mem_freeVars_list.2 ⟨e', List.mem_of_getElem? he', hb⟩)
  | operator he he' => exact .operator he he'
  | hole => exact .hole

/-- Lists are whole together if their elements are. -/
theorem hasHoleList_congr {es es' : List Expr}
    (h : List.Forall₂ (fun e e' => e.hasHole = e'.hasHole) es es') :
    hasHoleList es = hasHoleList es' := by
  induction h with
  | nil => rfl
  | cons he _ ih => rw [hasHoleList, hasHoleList, he, ih]

/-- Similar expressions lack parts alike. -/
theorem hasHole_eq (h : Similar curried R e e') : e.hasHole = e'.hasHole := by
  induction h with
  | var | int | bool | hole => rfl
  | app _ _ ihf iha => rw [hasHole, hasHole, ihf, iha]
  | lam _ ih => exact ih
  | letIn _ _ ihv ihb => rw [hasHole, hasHole, ihv, ihb]
  | ifThenElse _ _ _ iht iha ihb => rw [hasHole, hasHole, iht, iha, ihb]
  | fix _ ih => exact ih
  | list hlength _ ih =>
      exact hasHoleList_congr (forall₂_iff_getElem?.2 ⟨hlength, ih⟩)
  | operator he he' => rw [he.hasHole_eq_false, he'.hasHole_eq_false]

/-- The comparison may be read from right to left. -/
theorem symm (h : Similar curried R e e') (hRS : ∀ a b, R a b → S b a) :
    Similar curried S e' e := by
  induction h generalizing S with
  | var h => exact .var (hRS _ _ h)
  | app _ _ ihf iha => exact .app (ihf hRS) (iha hRS)
  | lam _ ih => exact .lam (ih fun a b => UnderBinders.symm hRS)
  | letIn _ _ ihv ihb => exact .letIn (ihv hRS) (ihb fun a b => UnderBinders.symm hRS)
  | int n => exact .int n
  | bool b => exact .bool b
  | ifThenElse _ _ _ iht iha ihb => exact .ifThenElse (iht hRS) (iha hRS) (ihb hRS)
  | fix _ ih => exact .fix (ih fun a b ⟨hab, ha, hb⟩ => ⟨hRS a b hab, hb, ha⟩)
  | list hlength _ ih => exact .list hlength.symm fun i e e' he he' => ih i e' e he' he hRS
  | operator he he' => exact .operator he' he
  | hole => exact .hole

/-- Similar applications have similar heads and similar arguments. -/
theorem spine (h : Similar curried R e e') :
    Similar curried R e.head e'.head ∧
      List.Forall₂ (Similar curried R) e.arguments e'.arguments := by
  induction h with
  | app _ ha ihf _ =>
      exact ⟨ihf.1, List.rel_append ihf.2 (.cons ha .nil)⟩
  | operator he he' =>
      have hleaf : ∀ {p e}, Denotes curried p e → e.head = e ∧ e.arguments = [] := by
        intro p e he
        cases he <;> exact ⟨rfl, rfl⟩
      rw [(hleaf he).1, (hleaf he).2, (hleaf he').1, (hleaf he').2]
      exact ⟨.operator he he', .nil⟩
  | var h => exact ⟨.var h, .nil⟩
  | lam h => exact ⟨.lam h, .nil⟩
  | letIn hv hb => exact ⟨.letIn hv hb, .nil⟩
  | int n => exact ⟨.int n, .nil⟩
  | bool b => exact ⟨.bool b, .nil⟩
  | ifThenElse ht ha hb => exact ⟨.ifThenElse ht ha hb, .nil⟩
  | fix h => exact ⟨.fix h, .nil⟩
  | list hlength hes => exact ⟨.list hlength hes, .nil⟩
  | hole => exact ⟨.hole, .nil⟩

/-- What is similar to an operator is a way to write it. -/
theorem denotes_of_prim {p : Primitive} (h : Similar curried R (.prim p) e') :
    Denotes curried p e' := by
  cases h with
  | operator he he' => exact he.eq_of_prim ▸ he'

end Similar

/-- An operator is applied to all its arguments, however it is written. -/
structure Operates (curried : Prop) (p : Primitive) (e : Expr) : Prop where
  head : Denotes curried p e.head
  ne_nil : e.arguments ≠ []
  arity_le : p.arity ≤ e.arguments.length

namespace Operates

variable {curried : Prop} {p : Primitive} {e e' : Expr} {args : List Expr}

/-- An operator with all its arguments operates. -/
theorem of_saturated? (h : Eval.saturated? e = some (p, args)) : Operates curried p e := by
  obtain ⟨hhead, rfl, hne, harity⟩ := Eval.saturated?_eq_some_iff.1 h
  exact ⟨hhead ▸ .prim, hne, harity⟩

/-- What is similar to the application of an operator to all its arguments is one as well. -/
theorem of_similar (h : Eval.saturated? e = some (p, args)) {R : String → String → Prop}
    (he : Similar curried R e e') : Operates curried p e' := by
  obtain ⟨hhead, rfl, hne, harity⟩ := Eval.saturated?_eq_some_iff.1 h
  obtain ⟨hheads, hargs⟩ := he.spine
  rw [hhead] at hheads
  refine ⟨hheads.denotes_of_prim, ?_, hargs.length_eq ▸ harity⟩
  intro hnil
  rw [hnil, List.forall₂_nil_right_iff] at hargs
  exact hne hargs

/-- An operator that is written as itself is carried out directly. -/
theorem saturated?_eq (h : Operates curried p e) (hhead : e.head = .prim p) :
    Eval.saturated? e = some (p, e.arguments) :=
  Eval.saturated?_eq_some_iff.2 ⟨hhead, rfl, h.ne_nil, h.arity_le⟩

end Operates

/-- Applications are similar if functions and arguments are. -/
theorem Similar.apps {curried : Prop} {R : String → String → Prop} {f f' : Expr}
    {args args' : List Expr} (hf : Similar curried R f f')
    (hargs : List.Forall₂ (Similar curried R) args args') :
    Similar curried R (f.apps args) (f'.apps args') := by
  induction hargs generalizing f f' with
  | nil => exact hf
  | cons ha _ ih => exact ih (.app hf ha)

/-- An expression in which operators may be written in other ways, and nothing else is
changed. -/
inductive Respells (curried : Prop) : Expr → Expr → Prop where
  | var (x : String) : Respells curried (.var x) (.var x)
  | app {f a f' a' : Expr} (hf : Respells curried f f') (ha : Respells curried a a') :
      Respells curried (.app f a) (.app f' a')
  | lam (x : String) {body body' : Expr} (hbody : Respells curried body body') :
      Respells curried (.lam x body) (.lam x body')
  | letIn (x : String) {value body value' body' : Expr} (hvalue : Respells curried value value')
      (hbody : Respells curried body body') :
      Respells curried (.letIn x value body) (.letIn x value' body')
  | int (n : Int) : Respells curried (.int n) (.int n)
  | bool (b : Bool) : Respells curried (.bool b) (.bool b)
  | ifThenElse {test onTrue onFalse test' onTrue' onFalse' : Expr}
      (htest : Respells curried test test') (htrue : Respells curried onTrue onTrue')
      (hfalse : Respells curried onFalse onFalse') :
      Respells curried (.ifThenElse test onTrue onFalse) (.ifThenElse test' onTrue' onFalse')
  | fix {body body' : Expr} (hbody : Respells curried body body') :
      Respells curried (.fix body) (.fix body')
  | list {es es' : List Expr} (hlength : es.length = es'.length)
      (hes : ∀ (i : Nat) e e', es[i]? = some e → es'[i]? = some e' → Respells curried e e') :
      Respells curried (.list es) (.list es')
  | prim {p : Primitive} {e : Expr} (he : Denotes curried p e) : Respells curried (.prim p) e
  | hole : Respells curried .hole .hole

namespace Respells

variable {curried : Prop} {e e' : Expr}

/-- Every expression is spelled like itself. -/
theorem refl (e : Expr) : Respells curried e e := by
  induction e with
  | var x => exact .var x
  | app f a ihf iha => exact .app ihf iha
  | lam x body ih => exact .lam x ih
  | letIn x value body ihv ihb => exact .letIn x ihv ihb
  | int n => exact .int n
  | bool b => exact .bool b
  | ifThenElse test onTrue onFalse iht iha ihb => exact .ifThenElse iht iha ihb
  | fix body ih => exact .fix ih
  | list es ih =>
      refine .list rfl fun i e e' he he' => ?_
      cases he.symm.trans he'
      exact ih e (List.mem_of_getElem? he)
  | prim p => exact .prim .prim
  | hole => exact .hole

/-- Where the free names stand for themselves, another writing is similar. -/
theorem similar (h : Respells curried e e') (hnames : ∀ x ∈ e.names, Unnumbered x)
    {R : String → String → Prop} (hR : ∀ x ∈ e.freeVars, R x x) : Similar curried R e e' := by
  induction h generalizing R with
  | var x => exact .var (hR x (by simp))
  | app _ _ ihf iha =>
      rw [names, List.forall_mem_append] at hnames
      exact .app (ihf hnames.1 fun x hx => hR x (by simp [hx]))
        (iha hnames.2 fun x hx => hR x (by simp [hx]))
  | lam x _ ih =>
      rw [names, List.forall_mem_cons] at hnames
      refine .lam (ih hnames.2 fun y hy => underBinders_self fun hyx => hR y ?_)
      simp [hy, hyx]
  | letIn x _ _ ihv ihb =>
      rw [names, List.forall_mem_cons, List.forall_mem_append] at hnames
      refine .letIn (ihv hnames.2.1 fun y hy => hR y (by simp [hy]))
        (ihb hnames.2.2 fun y hy => underBinders_self fun hyx => hR y ?_)
      simp [hy, hyx]
  | int n => exact .int n
  | bool b => exact .bool b
  | ifThenElse _ _ _ iht iha ihb =>
      rw [names, List.forall_mem_append, List.forall_mem_append] at hnames
      exact .ifThenElse (iht hnames.1.1 fun x hx => hR x (by simp [hx]))
        (iha hnames.1.2 fun x hx => hR x (by simp [hx]))
        (ihb hnames.2 fun x hx => hR x (by simp [hx]))
  | fix _ ih =>
      refine .fix (ih hnames fun x hx => ?_)
      have hx' := hnames x (freeVars_subset_names (by simpa using hx))
      exact ⟨hR x (by simpa using hx), hx', hx'⟩
  | list hlength _ ih =>
      rw [names] at hnames
      refine .list hlength fun i e e' he he' => ih i e e' he he' (fun x hx => ?_) fun x hx => ?_
      · exact hnames x (mem_namesList.2 ⟨e, List.mem_of_getElem? he, hx⟩)
      · exact hR x (mem_freeVars_list.2 ⟨e, List.mem_of_getElem? he, hx⟩)
  | prim he => exact .operator .prim he
  | hole => exact .hole

end Respells

/-- Distinct parameters in the same places stand for each other in the bodies of functions. -/
theorem similar_lams {curried : Prop} {R : String → String → Prop} {xs ys : List String}
    {body body' : Expr} (hlength : xs.length = ys.length) (hxs : xs.Nodup) (hys : ys.Nodup)
    (h : ∀ S : String → String → Prop, (∀ a b, a ∉ xs → b ∉ ys → R a b → S a b) →
      List.Forall₂ S xs ys → Similar curried S body body') :
    Similar curried R (xs.foldr .lam body) (ys.foldr .lam body') := by
  induction xs generalizing ys R with
  | nil =>
      obtain rfl := List.length_eq_zero_iff.1 hlength.symm
      exact h R (fun a b _ _ hab => hab) .nil
  | cons x xs ih =>
      cases ys with
      | nil => cases hlength
      | cons y ys =>
          rw [List.nodup_cons] at hxs hys
          refine .lam (ih (Nat.succ.inj hlength) hxs.2 hys.2 fun S hS hxys => ?_)
          refine h S (fun a b ha hb hab => ?_) (.cons ?_ hxys)
          · rw [List.mem_cons, not_or] at ha hb
            exact hS a b ha.2 hb.2 (Or.inr ⟨ha.1, hb.1, hab⟩)
          · exact hS x y hxs.1 hys.1 (Or.inl ⟨rfl, rfl⟩)

end Expr

/-! ## Similar values -/

/-- Two values are the same data, with functions in the same places whose bodies are similar
and which hold similar values for the names that stand for each other. -/
inductive Value.Similar (curried : Prop) : Value → Value → Prop where
  | int (n : Int) : Similar curried (.int n) (.int n)
  | bool (b : Bool) : Similar curried (.bool b) (.bool b)
  | list {vs ws : List Value} (hlength : vs.length = ws.length)
      (h : ∀ (i : Nat) v w, vs[i]? = some v → ws[i]? = some w → Similar curried v w) :
      Similar curried (.list vs) (.list ws)
  | pair {a b a' b' : Value} (ha : Similar curried a a') (hb : Similar curried b b') :
      Similar curried (.pair a b) (.pair a' b')
  | closure {R : String → String → Prop} {x y : String} {body body' : Expr}
      {captured captured' : Values}
      (hbody : Expr.Similar curried (UnderBinders R x y) body body')
      (hbound : ∀ a b v, R a b → captured.lookup a = some v → ∃ w, captured'.lookup b = some w)
      (hunbound : ∀ a b, R a b → captured.lookup a = none → captured'.lookup b = none ∧ a = b)
      (hvalues : ∀ a b v w, R a b → captured.lookup a = some v → captured'.lookup b = some w →
        Similar curried v w) :
      Similar curried (.closure x body captured) (.closure y body' captured')
  | hole : Similar curried .hole .hole

/-- What two names are found to stand for: similar values, or nothing if the names are the
same. -/
inductive Values.Found (curried : Prop) (a b : String) : Option Value → Option Value → Prop where
  | some {v w : Value} (h : v.Similar curried w) : Found curried a b (some v) (some w)
  | none (h : a = b) : Found curried a b none none

/-- A value that is found in one environment is found in the other one, similar to it. -/
theorem Values.Found.of_some {curried : Prop} {a b : String} {v : Value} {found : Option Value}
    (h : Values.Found curried a b (.some v) found) :
    ∃ w, found = .some w ∧ v.Similar curried w := by
  cases h with
  | some h => exact ⟨_, rfl, h⟩

/-- A name that is not found is free in both, under the same spelling. -/
theorem Values.Found.of_none {curried : Prop} {a b : String} {found : Option Value}
    (h : Values.Found curried a b .none found) : found = .none ∧ a = b := by
  cases h with
  | none h => exact ⟨rfl, h⟩

/-- Two environments have similar values for the names that stand for each other; names without
a value stand for themselves. -/
def Values.Similar (curried : Prop) (R : String → String → Prop) (env env' : Values) : Prop :=
  ∀ a b, R a b → Values.Found curried a b (env.lookup a) (env'.lookup b)

namespace Value

variable {curried : Prop} {v w : Value}

/-- Lists are similar element by element. -/
theorem similar_list_iff {vs ws : List Value} :
    Similar curried (.list vs) (.list ws) ↔ List.Forall₂ (Similar curried) vs ws := by
  rw [forall₂_iff_getElem?]
  refine ⟨fun h => ?_, fun h => .list h.1 h.2⟩
  cases h with
  | list hlength h => exact ⟨hlength, h⟩

/-- Closures are similar if they hold similar values for the names that stand for each other in
their bodies. -/
theorem similar_closure_iff {x y : String} {body body' : Expr} {captured captured' : Values} :
    Similar curried (.closure x body captured) (.closure y body' captured') ↔
      ∃ R, Expr.Similar curried (UnderBinders R x y) body body' ∧
        Values.Similar curried R captured captured' := by
  constructor
  · intro h
    cases h with
    | @closure R _ _ _ _ _ _ hbody hbound hunbound hvalues =>
        refine ⟨R, hbody, fun a b hab => ?_⟩
        cases ha : captured.lookup a with
        | none =>
            rw [(hunbound a b hab ha).1]
            exact .none (hunbound a b hab ha).2
        | some v =>
            obtain ⟨w, hb⟩ := hbound a b v hab ha
            rw [hb]
            exact .some (hvalues a b v w hab ha hb)
  · rintro ⟨R, hbody, hcaptured⟩
    refine .closure hbody (fun a b v hab ha => ?_) (fun a b hab ha => ?_)
      (fun a b v w hab ha hb => ?_)
    all_goals
      have hfound := hcaptured a b hab
      rw [ha] at hfound
    · obtain ⟨w, hw, -⟩ := hfound.of_some
      exact ⟨w, hw⟩
    · exact hfound.of_none
    · obtain ⟨w', hw', hsimilar⟩ := hfound.of_some
      cases hb.symm.trans hw'
      exact hsimilar

/-- Similar values look the same. -/
theorem Similar.outline_eq (h : Similar curried v w) : v.outline = w.outline := by
  induction h with
  | int | bool | closure | hole => rfl
  | @list vs ws hlength _ ih =>
      have hsame : vs.map outline = ws.map outline := by
        rw [← List.forall₂_eq_eq_eq, List.forall₂_map_left_iff, List.forall₂_map_right_iff]
        exact forall₂_iff_getElem?.2 ⟨hlength, ih⟩
      rw [outline, outline, outlineList_eq_map, outlineList_eq_map, hsame]
  | pair _ _ iha ihb => rw [outline, outline, iha, ihb]

/-- Functions that an operator becomes in two runs are similar. -/
theorem similar_of_wrapped {p : Primitive} (hv : Eval.Wrapped p v) (hw : Eval.Wrapped p w) :
    Similar curried v w := by
  cases hv with
  | list harity =>
      cases hw with
      | list => exact similar_list_iff.2 .nil
      | closure hlength => cases harity.symm.trans hlength.symm
  | @closure x rest hlength hnodup =>
      cases hw with
      | list harity => cases hlength.trans harity
      | @closure y rest' hlength' hnodup' =>
          rw [List.nodup_cons] at hnodup hnodup'
          have hrest : rest.length = rest'.length := Nat.succ.inj (hlength.trans hlength'.symm)
          refine similar_closure_iff.2 ⟨fun _ _ => False,
            Expr.similar_lams hrest hnodup.2 hnodup'.2 fun S hS hxys => ?_, fun _ _ h => h.elim⟩
          refine Expr.Similar.apps (.operator .prim .prim) ?_
          rw [List.forall₂_map_left_iff, List.forall₂_map_right_iff]
          refine .cons (.var (hS x y hnodup.1 hnodup'.1 (Or.inl ⟨rfl, rfl⟩))) ?_
          exact hxys.imp fun _ _ h => .var h

end Value

namespace Values.Similar

variable {curried : Prop} {R S : String → String → Prop} {env env' : Values}

/-- Environments without names are similar. -/
theorem nil : Similar curried (· = ·) [] [] := by
  rintro a b rfl
  exact .none rfl

/-- Similar values may be bound to names on both sides. -/
theorem cons (h : Similar curried R env env') {v w : Value} (hvw : v.Similar curried w)
    (x y : String) :
    Similar curried (UnderBinders R x y) ((x, v) :: env) ((y, w) :: env') := by
  rintro a b (⟨rfl, rfl⟩ | ⟨hax, hby, hab⟩)
  · rw [List.lookup_cons_self, List.lookup_cons_self]
    exact .some hvw
  · have ha : (a == x) = false := by simp [hax]
    have hb : (b == y) = false := by simp [hby]
    rw [List.lookup_cons, List.lookup_cons, ha, hb]
    exact h a b hab

/-- The closures of similar functions in similar environments are similar. -/
theorem closure (h : Similar curried R env env') {x y : String} {body body' : Expr}
    (hbody : Expr.Similar curried (UnderBinders R x y) body body') :
    Value.Similar curried (.closure x body (Eval.restrict env (body.freeVars.erase x)))
      (.closure y body' (Eval.restrict env' (body'.freeVars.erase y))) := by
  -- the closures hold the names that stand for each other and are used
  refine Value.similar_closure_iff.2
    ⟨fun a b => R a b ∧ a ∈ body.freeVars.erase x ∧ b ∈ body'.freeVars.erase y, ?_, ?_⟩
  · refine hbody.mono fun a b ha hb => Or.imp_right fun ⟨hax, hby, hab⟩ => ⟨hax, hby, hab, ?_, ?_⟩
    · exact OrderedSet.mem_erase.2 ⟨ha, hax⟩
    · exact OrderedSet.mem_erase.2 ⟨hb, hby⟩
  · rintro a b ⟨hab, ha, hb⟩
    rw [Eval.lookup_restrict env _ ha, Eval.lookup_restrict env' _ hb]
    exact h a b hab

end Values.Similar

/-! ## Similar errors -/

/-- Two errors have the same cause and quote similar values. -/
inductive EvalError.Similar (curried : Prop) : EvalError → EvalError → Prop where
  | unbound (name : String) : Similar curried (.unbound name) (.unbound name)
  | notFunction {v w : Value} (h : v.Similar curried w) :
      Similar curried (.notFunction v) (.notFunction w)
  | testNotBool {v w : Value} (h : v.Similar curried w) :
      Similar curried (.testNotBool v) (.testNotBool w)
  | wrongArgument (p : Primitive) {v w : Value} (h : v.Similar curried w) :
      Similar curried (.wrongArgument p v) (.wrongArgument p w)
  | tooDeep : Similar curried .tooDeep .tooDeep
  | hole : Similar curried .hole .hole
  | holeInBody : Similar curried .holeInBody .holeInBody
  | notApplicable (p : Primitive) : Similar curried (.notApplicable p) (.notApplicable p)

namespace EvalError.Similar

variable {curried : Prop} {e e' : EvalError}

/-- Similar errors have the same wording, or none. -/
theorem message_eq (h : Similar curried e e') : e.message = e'.message := by
  cases h with
  | notFunction h | testNotBool h | wrongArgument _ h =>
      rw [message, message, Value.render_eq_of_outline_eq h.outline_eq]
  | _ => rfl

/-- Similar errors are both the fault of the program, or neither is. -/
theorem isReported_eq (h : Similar curried e e') : e.isReported = e'.isReported := by
  cases h <;> rfl

end EvalError.Similar

end LetPoly
