import LetPoly.Proofs.Inference.Calls
import LetPoly.Proofs.Inference.Failures

/-!
# Unbound names

Scoping is there twice: inference looks names up in an environment that grows behind binders,
and the names that an expression uses and does not bind are computed as a set.  Here both are
tied to the places in an expression where a variable stands that no binder around it binds.

Inference goes from left to right and stops at the first place where it cannot go on: an
unbound variable, or the value of a local definition whose constraints have no solution.  So
an unbound name is reported for the leftmost place, and it goes unreported only behind a local
definition that fails.

Main results:

- Theorem {lit}`Expr.mem_freeVars_iff_freeAt`: a name is used and not bound if its variable stands
  somewhere outside of its binders.
- Theorem {lit}`Expr.Infers.get?_ne_none`: a run that succeeds finds all these names.
- Theorem {lit}`InferCall.exists_stopsAt`: a run that fails stops at a place.
- Theorem {lit}`Expr.unbound_names_detected`: unbound names are detected exactly.
-/

namespace LetPoly

/-! ## Places in expressions -/

namespace Expr

/-- The parts of an expression from left to right. -/
def parts : Expr → List Expr
  | app function argument => [function, argument]
  | lam _ body => [body]
  | letIn _ value body => [value, body]
  | ifThenElse test onTrue onFalse => [test, onTrue, onFalse]
  | fix body => [body]
  | list elements => elements
  | var _ | int _ | bool _ | prim _ | hole => []

/-- The name that an expression binds in one of its parts. -/
def binder? : Expr → Nat → Option String
  | lam parameter _, 0 => some parameter
  | letIn name _ _, 1 => some name
  | _, _ => none

/-- The expression at a position. -/
def at? : Expr → Position → Option Expr
  | e, [] => some e
  | e, i :: p => e.parts[i]?.bind fun part => part.at? p

/-- A variable stands at a position, and no function or local definition around it binds its
name. -/
inductive FreeAt : Expr → Position → String → Prop where
  | here (x : String) : FreeAt (.var x) [] x
  | inside {e part : Expr} {i : Nat} {p : Position} {x : String}
      (hpart : e.parts[i]? = some part) (hbinder : e.binder? i ≠ some x)
      (h : FreeAt part p x) : FreeAt e (i :: p) x

/-- A name is free at the top, or inside of a part that does not bind it. -/
theorem FreeAt.cases {e : Expr} {q : Position} {x : String} (h : e.FreeAt q x) :
    (e = .var x ∧ q = []) ∨ ∃ i p part, q = i :: p ∧ e.parts[i]? = some part ∧
      e.binder? i ≠ some x ∧ part.FreeAt p x := by
  cases h with
  | here => exact Or.inl ⟨rfl, rfl⟩
  | inside hpart hbinder h => exact Or.inr ⟨_, _, _, rfl, hpart, hbinder, h⟩

/-- The names that an expression uses and does not bind, by its parts. -/
theorem mem_freeVars_of_parts {e part : Expr} {i : Nat} {x : String}
    (hpart : e.parts[i]? = some part) (hbinder : e.binder? i ≠ some x)
    (hx : x ∈ part.freeVars) : x ∈ e.freeVars := by
  cases e with
  | app f a =>
      rcases i with _ | _ | i <;> cases hpart
      · exact mem_freeVars_app.2 (Or.inl hx)
      · exact mem_freeVars_app.2 (Or.inr hx)
  | lam y body =>
      rcases i with _ | i <;> cases hpart
      exact mem_freeVars_lam.2 ⟨hx, fun heq => hbinder (heq ▸ rfl)⟩
  | letIn y value body =>
      rcases i with _ | _ | i <;> cases hpart
      · exact mem_freeVars_letIn.2 (Or.inl hx)
      · exact mem_freeVars_letIn.2 (Or.inr ⟨hx, fun heq => hbinder (heq ▸ rfl)⟩)
  | ifThenElse t a b =>
      rcases i with _ | _ | _ | i <;> cases hpart
      · exact mem_freeVars_ifThenElse.2 (Or.inl hx)
      · exact mem_freeVars_ifThenElse.2 (Or.inr (Or.inl hx))
      · exact mem_freeVars_ifThenElse.2 (Or.inr (Or.inr hx))
  | fix body =>
      rcases i with _ | i <;> cases hpart
      exact mem_freeVars_fix.2 hx
  | list es => exact mem_freeVars_list.2 ⟨part, List.mem_of_getElem? hpart, hx⟩
  | var | int | bool | prim | hole => cases hpart

/-- A free name is free somewhere. -/
theorem exists_freeAt_of_mem_freeVars {e : Expr} {x : String} (h : x ∈ e.freeVars) :
    ∃ p, e.FreeAt p x := by
  -- a place in a part is a place in the whole
  have hinside : ∀ {e part : Expr} (i : Nat), e.parts[i]? = some part → e.binder? i ≠ some x →
      (∃ p, part.FreeAt p x) → ∃ p, e.FreeAt p x :=
    fun i hpart hbinder ⟨p, hp⟩ => ⟨i :: p, .inside hpart hbinder hp⟩
  induction e with
  | var y =>
      obtain rfl := mem_freeVars_var.1 h
      exact ⟨[], .here x⟩
  | app f a ihf iha =>
      rcases mem_freeVars_app.1 h with hf | ha
      · exact hinside 0 rfl (by simp [binder?]) (ihf hf)
      · exact hinside 1 rfl (by simp [binder?]) (iha ha)
  | lam y body ih =>
      obtain ⟨hbody, hne⟩ := mem_freeVars_lam.1 h
      exact hinside 0 rfl (fun heq => hne (Option.some.inj heq).symm) (ih hbody)
  | letIn y value body ihv ihb =>
      rcases mem_freeVars_letIn.1 h with hvalue | ⟨hbody, hne⟩
      · exact hinside 0 rfl (by simp [binder?]) (ihv hvalue)
      · exact hinside 1 rfl (fun heq => hne (Option.some.inj heq).symm) (ihb hbody)
  | ifThenElse t a b iht iha ihb =>
      rcases mem_freeVars_ifThenElse.1 h with ht | ha | hb
      · exact hinside 0 rfl (by simp [binder?]) (iht ht)
      · exact hinside 1 rfl (by simp [binder?]) (iha ha)
      · exact hinside 2 rfl (by simp [binder?]) (ihb hb)
  | fix body ih => exact hinside 0 rfl (by simp [binder?]) (ih (mem_freeVars_fix.1 h))
  | list es ih =>
      obtain ⟨e, he, hx⟩ := mem_freeVars_list.1 h
      obtain ⟨i, hi⟩ := List.mem_iff_getElem?.1 he
      exact hinside i hi (by simp [binder?]) (ih e he hx)
  | int | bool | prim | hole => exact absurd h OrderedSet.not_mem_empty

/-- A name is used and not bound if its variable stands somewhere outside of its binders. -/
theorem mem_freeVars_iff_freeAt {e : Expr} {x : String} : x ∈ e.freeVars ↔ ∃ p, e.FreeAt p x := by
  refine ⟨exists_freeAt_of_mem_freeVars, ?_⟩
  rintro ⟨p, hp⟩
  induction hp with
  | here x => exact mem_freeVars_var.2 rfl
  | inside hpart hbinder _ ih => exact mem_freeVars_of_parts hpart hbinder ih

/-- A part of an expression without missing parts has none. -/
theorem hasHole_of_parts {e part : Expr} {i : Nat} (he : e.hasHole = false)
    (hpart : e.parts[i]? = some part) : part.hasHole = false := by
  cases e with
  | app f a =>
      rw [hasHole, Bool.or_eq_false_iff] at he
      rcases i with _ | _ | i <;> cases hpart
      · exact he.1
      · exact he.2
  | lam y body =>
      rcases i with _ | i <;> cases hpart
      exact he
  | letIn y value body =>
      rw [hasHole, Bool.or_eq_false_iff] at he
      rcases i with _ | _ | i <;> cases hpart
      · exact he.1
      · exact he.2
  | ifThenElse t a b =>
      rw [hasHole, Bool.or_eq_false_iff, Bool.or_eq_false_iff] at he
      rcases i with _ | _ | _ | i <;> cases hpart
      · exact he.1.1
      · exact he.1.2
      · exact he.2
  | fix body =>
      rcases i with _ | i <;> cases hpart
      exact he
  | list es => exact hasHoleList_eq_false.1 he part (List.mem_of_getElem? hpart)
  | var | int | bool | prim | hole => cases hpart

end Expr

/-- A variable at a position is unbound: neither a binder around it nor the environment binds its
name. -/
def Expr.UnboundAt (Γ : Env Empty) (e : Expr) (p : Position) (x : String) : Prop :=
  e.FreeAt p x ∧ x ∉ Γ.names

/-- An unbound variable at a position, with all other unbound ones to its right. -/
structure Expr.FirstUnbound (Γ : Env Empty) (e : Expr) (p : Position) (x : String) : Prop where
  unbound : e.UnboundAt Γ p x
  leftmost : ∀ q y, e.UnboundAt Γ q y → q = p ∨ p.LeftOf q

/-! ## Names of a run that succeeds -/

/-- The names behind a local definition are the old ones and the new one. -/
theorem Env.get?_bindSolved_eq_none {Γ : Env Empty} {s : Subst Empty} {x y : String} {t : MonoTy} :
    (Γ.bindSolved s x t).get? y = none ↔ y ≠ x ∧ Γ.get? y = none := by
  rw [bindSolved, Bindings.get?_insert_eq_none]
  simp

namespace Expr

/-- A run on elements has found their free names if the runs on each of them have. -/
theorem InfersAll.get?_ne_none {Γ : Env Empty} {element : MonoTy} {es : List Expr}
    (ih : ∀ e ∈ es, ∀ {c r c'}, Infers Γ c e r c' → ∀ x ∈ e.freeVars, Γ.get? x ≠ none)
    {c c' : Int} {C : List (Constraint Empty)} (h : InfersAll Γ c element es C c') :
    ∀ e ∈ es, ∀ x ∈ e.freeVars, Γ.get? x ≠ none := by
  induction es generalizing c C with
  | nil => simp
  | cons e es ihes =>
      obtain ⟨t, c₁, D, he, hes, -⟩ := infersAll_cons.1 h
      refine List.forall_mem_cons.2 ⟨ih e List.mem_cons_self he, ?_⟩
      exact ihes (fun e he => ih e (List.mem_cons_of_mem _ he)) hes

/-- A run that succeeds finds all names that the expression uses and does not bind. -/
theorem Infers.get?_ne_none {Γ : Env Empty} {c c' : Int} {e : Expr} {r : Typed Empty}
    (h : Infers Γ c e r c') : ∀ x ∈ e.freeVars, Γ.get? x ≠ none := by
  induction e generalizing Γ c c' r with
  | var y =>
      obtain ⟨σ, t, hy, -, -⟩ := infers_var.1 h
      intro x hx
      obtain rfl := mem_freeVars_var.1 hx
      rw [hy]
      exact Option.some_ne_none σ
  | app f a ihf iha =>
      obtain ⟨rf, c₁, ra, c₂, hf, ha, -, -⟩ := infers_app.1 h
      intro x hx
      exact (mem_freeVars_app.1 hx).elim (ihf hf x) (iha ha x)
  | lam y body ih =>
      obtain ⟨b, hb, -⟩ := infers_lam.1 h
      intro x hx
      obtain ⟨hbody, hne⟩ := mem_freeVars_lam.1 hx
      exact fun hnone => ih hb x hbody (Bindings.get?_insert_eq_none.2 ⟨hne, hnone⟩)
  | letIn y value body ihv ihb =>
      obtain ⟨v, c₁, s, b, hv, -, hb, -⟩ := infers_letIn.1 h
      intro x hx
      rcases mem_freeVars_letIn.1 hx with hvalue | ⟨hbody, hne⟩
      · exact ihv hv x hvalue
      · exact fun hnone => ihb hb x hbody (Env.get?_bindSolved_eq_none.2 ⟨hne, hnone⟩)
  | ifThenElse test onTrue onFalse iht iha ihb =>
      obtain ⟨t, c₁, a, c₂, b, ht, ha, hb, -⟩ := infers_ifThenElse.1 h
      intro x hx
      rcases mem_freeVars_ifThenElse.1 hx with hx | hx | hx
      · exact iht ht x hx
      · exact iha ha x hx
      · exact ihb hb x hx
  | fix body ih =>
      obtain ⟨b, c₁, hb, -, -⟩ := infers_fix.1 h
      intro x hx
      exact ih hb x (mem_freeVars_fix.1 hx)
  | list es ih =>
      obtain ⟨C, hC, -⟩ := infers_list.1 h
      intro x hx
      obtain ⟨e, he, hx⟩ := mem_freeVars_list.1 hx
      exact hC.get?_ne_none (fun e he => ih e he) e he x hx
  | int | bool | prim | hole => exact fun x hx => absurd hx OrderedSet.not_mem_empty

end Expr

/-! ## Where a run stops -/

namespace Fresh

variable {α β : Type} {x : Fresh Empty α} {c c' : Int}

/-- A run that succeeds, with its counter apart. -/
theorem runFrom_eq_ok {a : α} : x.runFrom c = (.ok a, c') ↔ x.run c = .ok a c' := by
  rw [runFrom]
  cases x.run c <;> simp

/-- A run that fails, with its counter apart. -/
theorem runFrom_eq_error {error : CheckError Empty} :
    x.runFrom c = (.error error, c') ↔ x.run c = .error error c' := by
  rw [runFrom]
  cases x.run c <;> simp

/-- A sequence fails in its first part, or in its second part behind it. -/
theorem run_bind_eq_error {f : α → Fresh Empty β} {error : CheckError Empty} :
    (x >>= f).run c = .error error c' ↔
      x.run c = .error error c' ∨ ∃ a c₁, x.run c = .ok a c₁ ∧ (f a).run c₁ = .error error c' := by
  rw [EStateM.run_bind]
  cases hx : x.run c with
  | ok a c₁ => simp
  | error error₁ c₁ => simp

end Fresh

namespace InferCall

open LetPoly.Expr (Infers InfersAll)

/-- A call enters a part of its expression: it makes a call for the part, the part sees one more
name if the expression binds one there, and all names of the earlier parts were found. -/
structure Enters (call : InferCall) (i : Nat) (call' : InferCall) : Prop where
  makes : call.Makes call'
  part : call.expr.parts[i]? = some call'.expr
  scope : ∀ x, call'.env.get? x = none ↔ call.expr.binder? i ≠ some x ∧ call.env.get? x = none
  earlier : ∀ part ∈ call.expr.parts.take i, ∀ x ∈ part.freeVars, call.env.get? x ≠ none

/-- A run stops at a position with an error. -/
inductive StopsAt : InferCall → Position → CheckError Empty → Prop where
  /-- At a variable without a scheme. -/
  | unbound {Γ : Env Empty} {x : String} (hx : Γ.get? x = none) (c : Int) :
      StopsAt ⟨Γ, c, .var x⟩ [] (.rejected (.unbound x))
  /-- At a missing part. -/
  | hole (Γ : Env Empty) (c : Int) : StopsAt ⟨Γ, c, .hole⟩ [] (.broken .hole)
  /-- At the value of a local definition whose constraints have no solution. -/
  | unsolved {Γ : Env Empty} {c c₁ : Int} {value : Expr} {v : Typed Empty}
      {error : CheckError Empty} (hv : Infers Γ c value v c₁)
      (hs : Constraint.solve v.constraints = .error error) (x : String) (body : Expr) :
      StopsAt ⟨Γ, c, .letIn x value body⟩ [0] error
  /-- Inside a part. -/
  | inside {call call' : InferCall} {i : Nat} {p : Position} {error : CheckError Empty}
      (henters : call.Enters i call') (h : StopsAt call' p error) : StopsAt call (i :: p) error

/-- A part where nothing is bound is entered in the same environment. -/
theorem Enters.same {Γ : Env Empty} {c c₁ : Int} {e part : Expr} (i : Nat)
    (hmakes : Makes ⟨Γ, c, e⟩ ⟨Γ, c₁, part⟩) (hpart : e.parts[i]? = some part)
    (hbinder : e.binder? i = none)
    (hearlier : ∀ part ∈ e.parts.take i, ∀ x ∈ part.freeVars, Γ.get? x ≠ none) :
    Enters ⟨Γ, c, e⟩ i ⟨Γ, c₁, part⟩ where
  makes := hmakes
  part := hpart
  scope x := by simp [hbinder]
  earlier := hearlier

/-- Inference enters the body of a function with a fresh type for the parameter. -/
theorem enters_lam (Γ : Env Empty) (c : Int) (x : String) (body : Expr) :
    Enters ⟨Γ, c, .lam x body⟩ 0
      ⟨Γ.insert x (.mono (.var (typeVarName (c + 1)))), c + 1, body⟩ where
  makes := .lam Γ c x body
  part := rfl
  scope y := by
    rw [Bindings.get?_insert_eq_none, Expr.binder?, ne_comm, ne_eq (some x), Option.some.injEq]
  earlier := by simp

/-- Inference enters the body of a local definition once its value is solved. -/
theorem enters_scope {Γ : Env Empty} {c c₁ : Int} {value : Expr} {v : Typed Empty}
    {s : Subst Empty} (hv : Infers Γ c value v c₁)
    (hs : Constraint.solve v.constraints = .ok s) (x : String) (body : Expr) :
    Enters ⟨Γ, c, .letIn x value body⟩ 1 ⟨Γ.bindSolved s x v.type, c₁, body⟩ where
  makes := .scope hv hs x body
  part := rfl
  scope y := by
    rw [Env.get?_bindSolved_eq_none, Expr.binder?, ne_comm, ne_eq (some x), Option.some.injEq]
  earlier := List.forall_mem_singleton.2 hv.get?_ne_none

/-- A list fails at one of its elements, behind others that succeed. -/
theorem exists_failing_element {Γ : Env Empty} {element : MonoTy} {es : List Expr} {c c' : Int}
    {error : CheckError Empty}
    (h : (Expr.inferElements Γ element es).run c = .error error c') :
    ∃ before e after C c₁ c₂, es = before ++ e :: after ∧ InfersAll Γ c element before C c₁ ∧
      (e.infer Γ).run c₁ = .error error c₂ := by
  induction es generalizing c c' with
  | nil =>
      rw [Expr.inferElements] at h
      cases h
  | cons e es ih =>
      rw [Expr.inferElements] at h
      rcases Fresh.run_bind_eq_error.1 h with he | ⟨t, c₁, he, h⟩
      · exact ⟨[], e, es, [], c, c', rfl, Expr.infersAll_nil.2 ⟨rfl, rfl⟩, he⟩
      · rcases Fresh.run_bind_eq_error.1 h with hes | ⟨D, c₂, -, h⟩
        · obtain ⟨before, e', after, C, c₂, c₃, rfl, hbefore, he'⟩ := ih hes
          exact ⟨e :: before, e', after, _, c₂, c₃, rfl,
            Expr.infersAll_cons.2 ⟨t, c₁, C, he, hbefore, rfl⟩, he'⟩
        · cases h

/-- A run that fails stops at a position. -/
theorem exists_stopsAt {Γ : Env Empty} {c c' : Int} {e : Expr} {error : CheckError Empty}
    (h : (e.infer Γ).run c = .error error c') : ∃ p, StopsAt ⟨Γ, c, e⟩ p error := by
  -- a part that is entered and fails
  have hinside : ∀ {call : InferCall} {i : Nat} {call' : InferCall}, call.Enters i call' →
      (∃ p, call'.StopsAt p error) → ∃ p, call.StopsAt p error :=
    fun henters ⟨p, hp⟩ => ⟨_ :: p, .inside henters hp⟩
  induction e generalizing Γ c c' with
  | var x =>
      rw [Expr.infer] at h
      cases hx : Γ.get? x with
      | none =>
          rw [hx] at h
          cases h
          exact ⟨[], .unbound hx c⟩
      | some σ =>
          rw [hx] at h
          cases h
  | int n =>
      rw [Expr.infer] at h
      cases h
  | bool b =>
      rw [Expr.infer] at h
      cases h
  | prim p =>
      rw [Expr.infer] at h
      have hnever : Fresh.FailsWith (fun _ => False) p.type := p.type_failsWith
      rcases Fresh.run_bind_eq_error.1 h with htype | ⟨t, c₁, -, h⟩
      · exact (hnever c error c' htype).elim
      · cases h
  | hole =>
      rw [Expr.infer] at h
      cases h
      exact ⟨[], .hole Γ c⟩
  | lam x body ih =>
      rw [Expr.infer] at h
      rcases Fresh.run_bind_eq_error.1 h with hvar | ⟨a, c₁, ha, h⟩
      · cases hvar
      · obtain ⟨rfl, rfl⟩ := Fresh.run_var_eq_ok.1 ha
        rcases Fresh.run_bind_eq_error.1 h with hbody | ⟨b, c₂, -, h⟩
        · exact hinside (enters_lam Γ c x body) (ih hbody)
        · cases h
  | app f a ihf iha =>
      rw [Expr.infer] at h
      rcases Fresh.run_bind_eq_error.1 h with hf | ⟨rf, c₁, hf, h⟩
      · exact hinside (.same 0 (.function Γ c f a) rfl rfl (by simp)) (ihf hf)
      · rcases Fresh.run_bind_eq_error.1 h with ha | ⟨ra, c₂, -, h⟩
        · exact hinside (.same 1 (.argument hf a) rfl rfl
            (List.forall_mem_singleton.2 (Infers.get?_ne_none hf))) (iha ha)
        · cases h
  | letIn x value body ihv ihb =>
      rw [Expr.infer] at h
      rcases Fresh.run_bind_eq_error.1 h with hv | ⟨v, c₁, hv, h⟩
      · exact hinside (.same 0 (.value Γ c x value body) rfl rfl (by simp)) (ihv hv)
      · cases hs : Constraint.solve v.constraints with
        | error error₁ =>
            rw [Typed.bindIn, hs] at h
            cases h
            exact ⟨[0], .unsolved hv hs x body⟩
        | ok s =>
            rw [Typed.bindIn_eq_ok.2 ⟨s, hs, rfl⟩] at h
            rcases Fresh.run_bind_eq_error.1 h with hlift | ⟨Δ, c₂, hlift, h⟩
            · cases hlift
            · obtain ⟨hΔ, rfl⟩ := Fresh.run_lift_eq_ok.1 hlift
              cases hΔ
              rcases Fresh.run_bind_eq_error.1 h with hb | ⟨b, c₃, -, h⟩
              · exact hinside (enters_scope hv hs x body) (ihb hb)
              · cases h
  | ifThenElse test onTrue onFalse iht iha ihb =>
      rw [Expr.infer] at h
      rcases Fresh.run_bind_eq_error.1 h with ht | ⟨t, c₁, ht, h⟩
      · exact hinside (.same 0 (.test Γ c test onTrue onFalse) rfl rfl (by simp)) (iht ht)
      · rcases Fresh.run_bind_eq_error.1 h with ha | ⟨a, c₂, ha, h⟩
        · exact hinside (.same 1 (.onTrue ht onTrue onFalse) rfl rfl
            (List.forall_mem_singleton.2 (Infers.get?_ne_none ht))) (iha ha)
        · rcases Fresh.run_bind_eq_error.1 h with hb | ⟨b, c₃, -, h⟩
          · refine hinside (.same 2 (.onFalse ht ha onFalse) rfl rfl ?_) (ihb hb)
            exact List.forall_mem_cons.2 ⟨Infers.get?_ne_none ht,
              List.forall_mem_singleton.2 (Infers.get?_ne_none ha)⟩
          · cases h
  | fix body ih =>
      rw [Expr.infer] at h
      rcases Fresh.run_bind_eq_error.1 h with hb | ⟨b, c₁, -, h⟩
      · exact hinside (.same 0 (.fix Γ c body) rfl rfl (by simp)) (ih hb)
      · cases h
  | list es ih =>
      rw [Expr.infer] at h
      rcases Fresh.run_bind_eq_error.1 h with hvar | ⟨whole, c₁, hwhole, h⟩
      · cases hvar
      · obtain ⟨rfl, rfl⟩ := Fresh.run_var_eq_ok.1 hwhole
        rcases Fresh.run_bind_eq_error.1 h with hvar | ⟨element, c₂, helement, h⟩
        · cases hvar
        · obtain ⟨rfl, rfl⟩ := Fresh.run_var_eq_ok.1 helement
          rcases Fresh.run_bind_eq_error.1 h with hes | ⟨C, c₃, -, h⟩
          · obtain ⟨before, e, after, C, c₃, c₄, rfl, hbefore, he⟩ := exists_failing_element hes
            refine hinside (.same before.length (.element hbefore e after) ?_ rfl ?_)
              (ih e (by simp) he)
            · simp [Expr.parts]
            · rw [Expr.parts, List.take_left]
              exact hbefore.get?_ne_none fun _ _ => Infers.get?_ne_none
          · cases h

/-- At a position stands the value of a local definition, for which the run makes a call.  The
value is inferred and its constraints have no solution. -/
def LetFailsAt (start : InferCall) (p : Position) (error : CheckError Empty) : Prop :=
  ∃ q x value body Γ c, p = q ++ [0] ∧ start.expr.at? q = some (.letIn x value body) ∧
    start.During ⟨Γ, c, .letIn x value body⟩ ∧
    ∃ v c₁, Infers Γ c value v c₁ ∧ Constraint.solve v.constraints = .error error

/-- Where a part is entered, what is unbound is so in the part or stands to the right of it. -/
theorem Enters.unboundAt_cases {call call' : InferCall} {i : Nat} (h : call.Enters i call')
    {q : Position} {x : String} (hq : call.expr.UnboundAt call.env q x) :
    (∃ q', q = i :: q' ∧ call'.expr.UnboundAt call'.env q' x) ∨ ∃ j q', i < j ∧ q = j :: q' := by
  obtain ⟨hfree, hx⟩ := hq
  rw [Bindings.not_mem_names_iff] at hx
  rcases hfree.cases with ⟨hvar, -⟩ | ⟨j, q', part, rfl, hpart, hbinder, hfree⟩
  · have hnone := h.part
    rw [hvar] at hnone
    cases hnone
  · rcases lt_trichotomy j i with hj | rfl | hj
    · have hmem : part ∈ call.expr.parts.take i := by
        refine List.mem_of_getElem? (i := j) ?_
        rw [List.getElem?_take, if_pos hj, hpart]
      exact absurd hx (h.earlier part hmem x (Expr.mem_freeVars_iff_freeAt.2 ⟨q', hfree⟩))
    · cases hpart.symm.trans h.part
      refine Or.inl ⟨q', rfl, hfree, ?_⟩
      rw [Bindings.not_mem_names_iff, h.scope x]
      exact ⟨hbinder, hx⟩
    · exact Or.inr ⟨j, q', hj, rfl⟩

/-- A place in a part that is entered is a place in the whole. -/
theorem Enters.unboundAt {call call' : InferCall} {i : Nat} (h : call.Enters i call')
    {q : Position} {x : String} (hq : call'.expr.UnboundAt call'.env q x) :
    call.expr.UnboundAt call.env (i :: q) x := by
  obtain ⟨hfree, hx⟩ := hq
  rw [Bindings.not_mem_names_iff, h.scope x] at hx
  exact ⟨.inside h.part hx.1 hfree, Bindings.not_mem_names_iff.2 hx.2⟩

/-- A local definition that fails inside of a part fails at its place in the whole. -/
theorem Enters.letFailsAt {call call' : InferCall} {i : Nat} (h : call.Enters i call')
    {p : Position} {error : CheckError Empty} (hp : call'.LetFailsAt p error) :
    call.LetFailsAt (i :: p) error := by
  obtain ⟨q, x, value, body, Γ, c, rfl, hat, hduring, hfails⟩ := hp
  refine ⟨i :: q, x, value, body, Γ, c, rfl, ?_, hduring.head h.makes, hfails⟩
  rw [Expr.at?, h.part, Option.bind_some, hat]

/-- A run stops at the leftmost unbound variable, or at the value of a local definition to the
left of all of them. -/
theorem StopsAt.explained {call : InferCall} {p : Position} {error : CheckError Empty}
    (h : call.StopsAt p error) (hwhole : call.expr.hasHole = false) :
    (∃ x, error = .rejected (.unbound x) ∧ call.expr.FirstUnbound call.env p x) ∨
      (call.LetFailsAt p error ∧
        ∀ q y, call.expr.UnboundAt call.env q y → p.LeftOf q) := by
  induction h with
  | @unbound Γ x hx c =>
      refine Or.inl ⟨x, rfl, ⟨.here x, Bindings.not_mem_names_iff.2 hx⟩, ?_⟩
      rintro q y ⟨hfree, -⟩
      rcases hfree.cases with ⟨-, hq⟩ | ⟨_, _, _, -, hpart, -⟩
      · exact Or.inl hq
      · cases hpart
  | hole Γ c => cases hwhole
  | @unsolved Γ c c₁ value v error hv hs x body =>
      refine Or.inr ⟨⟨[], x, value, body, Γ, c, rfl, rfl, .refl, v, c₁, hv, hs⟩, ?_⟩
      rintro q y ⟨hfree, hy⟩
      rw [Bindings.not_mem_names_iff] at hy
      rcases hfree.cases with ⟨hvar, -⟩ | ⟨j, q', part, rfl, hpart, -, hfree⟩
      · cases hvar
      · rcases j with _ | j
        · cases hpart
          exact absurd hy (hv.get?_ne_none y (Expr.mem_freeVars_iff_freeAt.2 ⟨q', hfree⟩))
        · exact .apart (Nat.succ_pos j) [] q'
  | @inside call call' i p error henters _ ih =>
      rcases ih (Expr.hasHole_of_parts hwhole henters.part) with ⟨x, rfl, hfirst⟩ | ⟨hlet, hleft⟩
      · refine Or.inl ⟨x, rfl, henters.unboundAt hfirst.unbound, fun q y hq => ?_⟩
        rcases henters.unboundAt_cases hq with ⟨q', rfl, hq'⟩ | ⟨j, q', hj, rfl⟩
        · rcases hfirst.leftmost q' y hq' with rfl | hleft
          · exact Or.inl rfl
          · exact Or.inr (.along i hleft)
        · exact Or.inr (.apart hj p q')
      · refine Or.inr ⟨henters.letFailsAt hlet, fun q y hq => ?_⟩
        rcases henters.unboundAt_cases hq with ⟨q', rfl, hq'⟩ | ⟨j, q', hj, rfl⟩
        · exact .along i (hleft q' y hq')
        · exact .apart hj p q'

/-- The error of a local definition that fails is about types. -/
theorem LetFailsAt.error_cases {call : InferCall} {p : Position} {error : CheckError Empty}
    (h : call.LetFailsAt p error) :
    (∃ l r, error = .rejected (.clash l r)) ∨ ∃ a t, error = .rejected (.infinite a t) := by
  obtain ⟨_, _, _, _, _, _, -, -, -, v, _, -, hs⟩ := h
  obtain ⟨_, _, _, _, _, -, hfails⟩ := Constraint.exists_failsAt_of_solve hs
  obtain ⟨l, r, -, -, hreports⟩ := hfails.reports
  cases hreports with
  | clash _ => exact Or.inl ⟨_, _, rfl⟩
  | left _ _ => exact Or.inr ⟨_, _, rfl⟩
  | right _ _ => exact Or.inr ⟨_, _, rfl⟩

end InferCall

/-! ## Detection of unbound names -/

namespace Expr

/-- A failed run on an expression without missing parts, explained. -/
theorem explained_of_runFrom {e : Expr} (he : e.hasHole = false) {Γ : Env Empty} {c c' : Int}
    {error : CheckError Empty} (h : (e.infer Γ).runFrom c = (.error error, c')) :
    (∃ p x, error = .rejected (.unbound x) ∧ e.FirstUnbound Γ p x) ∨
      ∃ p, InferCall.LetFailsAt ⟨Γ, c, e⟩ p error ∧ ∀ q y, e.UnboundAt Γ q y → p.LeftOf q := by
  obtain ⟨p, hp⟩ := InferCall.exists_stopsAt (Fresh.runFrom_eq_error.1 h)
  rcases hp.explained he with ⟨x, herror, hfirst⟩ | hlet
  · exact Or.inl ⟨p, x, herror, hfirst⟩
  · exact Or.inr ⟨p, hlet⟩

/-- Unbound names are detected exactly, for expressions without missing parts, in all environments
and from every count.  A reported name stands at the leftmost place where a variable is bound
neither around the place nor in the environment.  Where the environment has all names that the
expression uses and does not bind, none is reported.  Where it lacks one of them, inference fails:
it reports the leftmost one, or else a clash or an infinite type from the value of a local
definition to the left of all of them. -/
theorem unbound_names_detected {e : Expr} (he : e.hasHole = false) (Γ : Env Empty) (c : Int) :
    (∀ x c', (e.infer Γ).runFrom c = (.error (.rejected (.unbound x)), c') →
      ∃ p, e.FirstUnbound Γ p x) ∧
    ((∀ x ∈ e.freeVars, x ∈ Γ.names) →
      ∀ x c', (e.infer Γ).runFrom c ≠ (.error (.rejected (.unbound x)), c')) ∧
    ((∃ x ∈ e.freeVars, x ∉ Γ.names) →
      ∃ error c', (e.infer Γ).runFrom c = (.error error, c') ∧
        ((∃ p x, error = .rejected (.unbound x) ∧ e.FirstUnbound Γ p x) ∨
          (((∃ l r, error = .rejected (.clash l r)) ∨ ∃ a t, error = .rejected (.infinite a t)) ∧
            ∃ p, InferCall.LetFailsAt ⟨Γ, c, e⟩ p error ∧
              ∀ q y, e.UnboundAt Γ q y → p.LeftOf q))) := by
  have hreported : ∀ x c', (e.infer Γ).runFrom c = (.error (.rejected (.unbound x)), c') →
      ∃ p, e.FirstUnbound Γ p x := by
    intro x c' h
    rcases explained_of_runFrom he h with ⟨p, y, herror, hfirst⟩ | ⟨p, hlet, -⟩
    · cases herror
      exact ⟨p, hfirst⟩
    · rcases hlet.error_cases with ⟨l, r, herror⟩ | ⟨a, t, herror⟩
      · cases herror
      · cases herror
  refine ⟨hreported, ?_, ?_⟩
  · intro hnames x c' h
    obtain ⟨p, hfirst⟩ := hreported x c' h
    obtain ⟨hfree, hx⟩ := hfirst.unbound
    exact hx (hnames x (mem_freeVars_iff_freeAt.2 ⟨p, hfree⟩))
  · rintro ⟨x, hfree, hx⟩
    cases hrun : (e.infer Γ).runFrom c with
    | mk outcome c' =>
        cases outcome with
        | ok r =>
            have hinfers : Infers Γ c e r c' := Fresh.runFrom_eq_ok.1 hrun
            exact absurd (Bindings.not_mem_names_iff.1 hx) (hinfers.get?_ne_none x hfree)
        | error error =>
            refine ⟨error, c', rfl, (explained_of_runFrom he hrun).imp_right ?_⟩
            rintro ⟨p, hlet, hleft⟩
            exact ⟨hlet.error_cases, p, hlet, hleft⟩

/-- A choice between names of which two are unbound, one of them behind a binder of the other. -/
def twoUnbound : Expr :=
  .ifThenElse (.lam "k" (.app (.var "h") (.var "k"))) (.var "k") (.var "h")

/-- A local definition that cannot be typed, in front of an unbound name. -/
def failingFirst : Expr :=
  .app (.letIn "f" (.app (.int 1) (.int 2)) (.var "f")) (.var "y")

/-- An environment with a name, of a type that is not generalized. -/
def withParameter : Env Empty :=
  Bindings.insert ∅ "y" (.mono (.var "t7"))

/-- An unbound name is reported at its leftmost place, another one is not reported because a local
definition fails first, and it is never reported where the environment has it. -/
theorem unbound_names_detected_twice :
    (twoUnbound.hasHole = false ∧
      (twoUnbound.infer (∅ : Env Empty)).runFrom 0 = (.error (.rejected (.unbound "h")), 1) ∧
      ∃ p, twoUnbound.FirstUnbound ∅ p "h") ∧
    (failingFirst.hasHole = false ∧ (∃ x ∈ failingFirst.freeVars, x ∉ (∅ : Env Empty).names) ∧
      ∃ p, InferCall.LetFailsAt ⟨∅, 0, failingFirst⟩ p
          (.rejected (.clash .int (.fn .int (.var "t1")))) ∧
        ∀ q y, failingFirst.UnboundAt ∅ q y → p.LeftOf q) ∧
    (∀ x ∈ failingFirst.freeVars, x ∈ withParameter.names) ∧
      ∀ x c', (failingFirst.infer withParameter).runFrom 0 ≠
        (.error (.rejected (.unbound x)), c') := by
  have hreported : (twoUnbound.infer (∅ : Env Empty)).runFrom 0 =
      (.error (.rejected (.unbound "h")), 1) := rfl
  have hfree : ∀ x, x ∈ failingFirst.freeVars ↔ x = "y" := fun _ => List.mem_singleton
  have hlacks : ∃ x ∈ failingFirst.freeVars, x ∉ (∅ : Env Empty).names :=
    ⟨"y", (hfree "y").2 rfl, List.not_mem_nil⟩
  have hnames : ∀ x ∈ failingFirst.freeVars, x ∈ withParameter.names := by
    intro x hx
    rw [hfree] at hx
    exact hx ▸ List.mem_singleton_self "y"
  have hfails : (failingFirst.infer (∅ : Env Empty)).runFrom 0 =
      (.error (.rejected (.clash .int (.fn .int (.var "t1")))), 1) := rfl
  refine ⟨⟨rfl, hreported, (unbound_names_detected rfl ∅ 0).1 "h" 1 hreported⟩, ?_, hnames,
    (unbound_names_detected rfl withParameter 0).2.1 hnames⟩
  obtain ⟨error, c', hrun, herror⟩ := (unbound_names_detected rfl ∅ 0).2.2 hlacks
  cases hfails.symm.trans hrun
  rcases herror with ⟨p, x, hunbound, -⟩ | ⟨-, p, hlet⟩
  · cases hunbound
  · exact ⟨rfl, hlacks, p, hlet⟩

end Expr

end LetPoly
