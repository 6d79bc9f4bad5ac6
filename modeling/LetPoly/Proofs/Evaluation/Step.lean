import LetPoly.Proofs.Evaluation.Logic
import LetPoly.Proofs.NumberedNames

/-!
# One level of evaluation

Typed expressions in fitting environments evaluate to values of their types, provided that
their parts do.  Closures, operators that are used as functions and fixed points are left to
the model of values: what is proved here is that they are typed.

Main results:

- Theorem {lit}`Expr.TypedBy.exists_spine`: the typing of a curried application.
- Theorem {lit}`Expr.TypedBy.wrapped`: the typing of an operator as a function.
- Theorem {lit}`ValueModel.evaluateStep`: one level of evaluation.
-/

namespace LetPoly

/-! ## Curried applications and functions -/

namespace Expr

variable {fixable : Expr → MonoTy → Prop} {G : String → Set MonoTy}

/-- More arguments do not change what stands at the head. -/
theorem head_apps (f : Expr) (args : List Expr) : (f.apps args).head = f.head := by
  induction args generalizing f with
  | nil => rfl
  | cons a args ih => exact ih (f.app a)

/-- More arguments stand behind those before them. -/
theorem arguments_apps (f : Expr) (args : List Expr) :
    (f.apps args).arguments = f.arguments ++ args := by
  induction args generalizing f with
  | nil => exact (List.append_nil _).symm
  | cons a args ih =>
      refine (ih (f.app a)).trans ?_
      rw [arguments, List.append_assoc]
      rfl

/-- The typing of a curried application: the arguments have types, and the function takes
them. -/
theorem TypedBy.exists_spine {f : Expr} {args : List Expr} {t : MonoTy}
    (h : TypedBy fixable G (f.apps args) t) :
    ∃ ts, List.Forall₂ (fun u a => TypedBy fixable G a u) ts args ∧
      TypedBy fixable G f (ts.foldr .fn t) := by
  induction args generalizing f with
  | nil => exact ⟨[], .nil, h⟩
  | cons a args ih =>
      obtain ⟨ts, hargs, happ⟩ := ih (f := f.app a) h
      cases happ with
      | app hf ha => exact ⟨_ :: ts, .cons ha hargs, hf⟩

/-- An application to arguments of the right types has the type of the result. -/
theorem TypedBy.apps {f : Expr} {args : List Expr} {ts : List MonoTy} {t : MonoTy}
    (hargs : List.Forall₂ (fun u a => TypedBy fixable G a u) ts args)
    (hf : TypedBy fixable G f (ts.foldr .fn t)) : TypedBy fixable G (f.apps args) t := by
  induction hargs generalizing f with
  | nil => exact hf
  | cons ha _ ih => exact ih (f := f.app _) (.app hf ha)

/-- The uses of names that are bound to one type each, the last binding first. -/
def bindAll (G : String → Set MonoTy) : List String → List MonoTy → String → Set MonoTy
  | x :: xs, t :: ts => bindAll (Function.update G x {t}) xs ts
  | _, _ => G

/-- A name that is not bound has the type that it had. -/
theorem bindAll_of_not_mem {xs : List String} {ts : List MonoTy} {y : String} (h : y ∉ xs) :
    bindAll G xs ts y = G y := by
  induction xs generalizing G ts with
  | nil => rfl
  | cons x xs ih =>
      cases ts with
      | nil => rfl
      | cons t ts =>
          rw [List.mem_cons, not_or] at h
          rw [bindAll, ih h.2, Function.update_of_ne h.1]

/-- Distinct names take the types that they are bound to. -/
theorem forall₂_bindAll {xs : List String} {ts : List MonoTy} (hnodup : xs.Nodup)
    (hlength : ts.length = xs.length) :
    List.Forall₂ (fun t x => TypedBy fixable (bindAll G xs ts) x t) ts (xs.map .var) := by
  induction xs generalizing G ts with
  | nil =>
      obtain rfl := List.length_eq_zero_iff.1 hlength
      exact .nil
  | cons x xs ih =>
      cases ts with
      | nil => cases hlength
      | cons t ts =>
          rw [List.nodup_cons] at hnodup
          refine .cons (.var ?_) (ih hnodup.2 (Nat.succ.inj hlength))
          rw [bindAll, bindAll_of_not_mem hnodup.1, Function.update_self]
          exact Set.mem_singleton t

/-- A function of several parameters is typed by its body. -/
theorem TypedBy.lams {xs : List String} {ts : List MonoTy} {body : Expr} {t : MonoTy}
    (hlength : ts.length = xs.length) (h : TypedBy fixable (bindAll G xs ts) body t) :
    TypedBy fixable G (xs.foldr .lam body) (ts.foldr .fn t) := by
  induction xs generalizing G ts with
  | nil =>
      obtain rfl := List.length_eq_zero_iff.1 hlength
      exact h
  | cons x xs ih =>
      cases ts with
      | nil => cases hlength
      | cons u ts => exact .lam (ih (Nat.succ.inj hlength) h)

/-- The body of an operator that was given a parameter for each argument. -/
def saturation (p : Primitive) (xs : List String) : Expr :=
  (Expr.prim p).apps (xs.map .var)

/-- The free names of an application are those of its parts. -/
theorem mem_freeVars_apps {f : Expr} {args : List Expr} {x : String} :
    x ∈ (f.apps args).freeVars ↔ x ∈ f.freeVars ∨ ∃ a ∈ args, x ∈ a.freeVars := by
  induction args generalizing f with
  | nil => simp [apps]
  | cons a args ih =>
      refine (ih (f := f.app a)).trans ?_
      simp [or_assoc]

/-- The parameters are bound in the body. -/
theorem mem_freeVars_lams {xs : List String} {body : Expr} {x : String} :
    x ∈ (xs.foldr .lam body).freeVars ↔ x ∈ body.freeVars ∧ x ∉ xs := by
  induction xs with
  | nil => simp
  | cons y ys ih =>
      rw [List.foldr_cons, mem_freeVars_lam, ih, List.mem_cons, not_or, and_assoc,
        and_comm (a := x ∉ ys)]

/-- An operator with names for all arguments has these names. -/
@[simp] theorem mem_freeVars_saturation {p : Primitive} {xs : List String} {x : String} :
    x ∈ (saturation p xs).freeVars ↔ x ∈ xs := by
  rw [saturation, mem_freeVars_apps]
  simp [freeVars]

/-- Behind its first parameter, an operator as a function uses no other names. -/
theorem eq_of_mem_freeVars_lams_saturation {p : Primitive} {x y : String} {rest : List String}
    (h : y ∈ (rest.foldr .lam (saturation p (x :: rest))).freeVars) : y = x := by
  obtain ⟨hmem, hrest⟩ := mem_freeVars_lams.1 h
  rw [mem_freeVars_saturation, List.mem_cons] at hmem
  exact hmem.resolve_right hrest

/-- An application is whole if its parts are. -/
theorem hasHole_apps {f : Expr} {args : List Expr} :
    (f.apps args).hasHole = false ↔ f.hasHole = false ∧ ∀ a ∈ args, a.hasHole = false := by
  induction args generalizing f with
  | nil => simp [apps]
  | cons a args ih =>
      refine (ih (f := f.app a)).trans ?_
      simp [hasHole, and_assoc]

@[simp] theorem hasHole_lams (xs : List String) (body : Expr) :
    (xs.foldr .lam body).hasHole = body.hasHole := by
  induction xs with
  | nil => rfl
  | cons x xs ih => exact ih

@[simp] theorem hasHole_saturation (p : Primitive) (xs : List String) :
    (saturation p xs).hasHole = false :=
  hasHole_apps.2 ⟨rfl, by simp [hasHole]⟩

/-- An operator as a function of distinct parameters has every type of the operator. -/
theorem TypedBy.wrapped {p : Primitive} {xs : List String} {ts : List MonoTy} {t : MonoTy}
    (hp : p.signature.Instance (ts.foldr .fn t)) (hnodup : xs.Nodup)
    (hlength : ts.length = xs.length) :
    TypedBy fixable G (xs.foldr .lam (saturation p xs)) (ts.foldr .fn t) :=
  .lams hlength (.apps (forall₂_bindAll hnodup hlength) (.prim hp))

end Expr

/-- An operator's types are the curried types of as many arguments as it takes. -/
theorem Primitive.exists_curried {p : Primitive} {t : MonoTy} (h : p.signature.Instance t) :
    ∃ (ts : List MonoTy) (u : MonoTy), t = ts.foldr .fn u ∧ ts.length = p.arity := by
  obtain ⟨s, -, rfl⟩ := h
  cases p with
  | nil => exact ⟨[], _, rfl, rfl⟩
  | null | fst | snd => exact ⟨[_], _, rfl, rfl⟩
  | add | sub | mul | eql | map | pair | cons => exact ⟨[_, _], _, rfl, rfl⟩
  | foldl => exact ⟨[_, _, _], _, rfl, rfl⟩

/-! ## Environments and closures -/

namespace Eval

/-- A restricted environment has the values of the names that it keeps. -/
theorem lookup_restrict (env : Values) (names : OrderedSet String) {x : String}
    (hx : x ∈ names) : (restrict env names).lookup x = env.lookup x := by
  have hlookup : ∀ xs : List String,
      (xs.filterMap fun y => (env.lookup y).map fun v => (y, v)).lookup x =
        if x ∈ xs then env.lookup x else none := by
    intro xs
    induction xs with
    | nil => rfl
    | cons y ys ih =>
        cases hv : env.lookup y with
        | none =>
            rw [List.filterMap_cons_none (by rw [hv]; rfl), ih]
            grind
        | some v =>
            rw [List.filterMap_cons_some (by rw [hv]; rfl), List.lookup_cons, ih]
            grind
  exact (hlookup names.toList).trans (if_pos hx)

/-- A function without missing parts is closed over the values of the names that its body
uses. -/
theorem close_eq_pure {body : Expr} (hbody : body.hasHole = false) (env : Values) (x : String) :
    close env x body = pure (.closure x body (restrict env (body.freeVars.erase x))) := by
  rw [close, usedNames, hbody]
  rfl

/-- A name is evaluated by looking it up. -/
theorem evaluate_var {env : Values} {x : String} {v : Value} (h : env.lookup x = some v)
    (n : Nat) : evaluate (n + 1) env (.var x) = pure v := by
  change evaluateForm (evaluate n) env (.var x) = pure v
  rw [evaluateForm, h]

/-- Fresh parameters are as many as asked for, and distinct. -/
theorem run_freshParameters (n : Nat) (c : Int) :
    ∃ xs c', (freshParameters n).run c = .ok (xs, c') ∧ xs.length = n ∧ xs.Nodup := by
  -- the names come after the counter, so the first is none of the others
  have hlater : ∃ xs c', (freshParameters n).run c = .ok (xs, c') ∧ xs.length = n ∧
      xs.Nodup ∧ ∀ x ∈ xs, ∃ i, c < i ∧ x = parameterName i := by
    induction n generalizing c with
    | zero => exact ⟨[], c, rfl, rfl, .nil, by simp⟩
    | succ n ih =>
        obtain ⟨xs, c', hrun, hlength, hnodup, hlater⟩ := ih (c + 1)
        have hrun' : (freshParameters (n + 1)).run c =
            .ok (parameterName (c + 1) :: xs, c') := by
          change (freshParameters n).run (c + 1) >>= _ = _
          rw [hrun]
          rfl
        refine ⟨_, c', hrun', by rw [List.length_cons, hlength], ?_, ?_⟩
        · refine List.nodup_cons.2 ⟨fun hmem => ?_, hnodup⟩
          obtain ⟨i, hi, heq⟩ := hlater _ hmem
          have hsame := parameterName_injective heq
          omega
        · intro x hx
          rcases List.mem_cons.1 hx with rfl | hx
          · exact ⟨c + 1, by omega, rfl⟩
          · obtain ⟨i, hi, rfl⟩ := hlater x hx
            exact ⟨i, by omega, rfl⟩
  obtain ⟨xs, c', hrun, hlength, hnodup, -⟩ := hlater
  exact ⟨xs, c', hrun, hlength, hnodup⟩

/-- The values that operators become when they are used as functions: the operator without
arguments is a list, any other one is a closure for its first parameter. -/
inductive Wrapped (p : Primitive) : Value → Prop where
  | list (harity : p.arity = 0) : Wrapped p (.list [])
  | closure {x : String} {rest : List String} (hlength : (x :: rest).length = p.arity)
      (hnodup : (x :: rest).Nodup) :
      Wrapped p (.closure x (rest.foldr .lam (Expr.saturation p (x :: rest))) [])

/-- An operator as a value is made without failure, whatever the counter. -/
theorem exists_run_wrap (p : Primitive) (c : Int) :
    ∃ v c', (wrap p).run c = .ok (v, c') ∧ Wrapped p v := by
  obtain ⟨xs, c', hrun, hlength, hnodup⟩ := run_freshParameters p.arity c
  have hwrap : (wrap p).run c = (freshParameters p.arity).run c >>= _ := StateT.run_bind ..
  cases xs with
  | nil => exact ⟨.list [], c', by rw [hwrap, hrun]; rfl, .list hlength.symm⟩
  | cons x rest => exact ⟨_, c', by rw [hwrap, hrun]; rfl, .closure hlength hnodup⟩

/-- A saturated application is an operator with at least as many arguments as it takes, all
of them smaller than the application. -/
theorem of_saturated? {e : Expr} {p : Primitive} {args : List Expr}
    (h : saturated? e = some (p, args)) :
    e = (Expr.prim p).apps args ∧ p.arity ≤ args.length ∧
      ∀ a ∈ args, sizeOf a < sizeOf e := by
  have hsize : ∀ e : Expr, ∀ a ∈ e.arguments, sizeOf a < sizeOf e := by
    intro e
    induction e with
    | app f b ihf _ =>
        intro a ha
        rw [Expr.arguments, List.mem_append, List.mem_singleton] at ha
        rcases ha with ha | rfl
        · have := ihf a ha
          simp only [Expr.app.sizeOf_spec]
          omega
        · simp only [Expr.app.sizeOf_spec]
          omega
    | _ => exact fun a ha => absurd ha List.not_mem_nil
  have hspine := e.apps_spine
  have hargs := hsize e
  revert h
  rw [saturated?]
  split
  · rename_i q first rest hhead harguments
    split_ifs with harity
    · intro h
      cases h
      rw [hhead, harguments] at hspine
      rw [harguments] at hargs
      exact ⟨hspine.symm, harity, hargs⟩
    · intro h
      cases h
  · intro h
    cases h

/-- An operator with all its arguments: there is an argument, and not too few of them. -/
theorem saturated?_eq_some_iff {e : Expr} {p : Primitive} {args : List Expr} :
    saturated? e = some (p, args) ↔
      e.head = .prim p ∧ e.arguments = args ∧ args ≠ [] ∧ p.arity ≤ args.length := by
  constructor
  · rw [saturated?]
    split
    · rename_i q first rest hhead harguments
      split_ifs with harity
      · rintro ⟨⟩
        exact ⟨hhead, harguments, List.cons_ne_nil _ _, harity⟩
      · exact nofun
    · exact nofun
  · rintro ⟨hhead, rfl, hne, harity⟩
    obtain ⟨first, rest, harguments⟩ := List.exists_cons_of_ne_nil hne
    rw [harguments] at harity
    rw [saturated?, hhead, harguments]
    exact if_pos harity

/-- An operator with names for all arguments has all its arguments. -/
theorem saturated?_saturation {p : Primitive} {xs : List String} (hxs : xs ≠ [])
    (hlength : xs.length = p.arity) :
    saturated? (Expr.saturation p xs) = some (p, xs.map .var) := by
  obtain ⟨x, rest, rfl⟩ := List.exists_cons_of_ne_nil hxs
  have hrest : rest.length + 1 = p.arity := hlength
  rw [saturated?, Expr.saturation, Expr.head_apps, Expr.arguments_apps]
  simp [Expr.head, Expr.arguments, hrest]

end Eval

namespace Values

/-- The names of an environment have values that belong to all types at which the names may
be used. -/
def Fits (Valid : MonoTy → Value → Prop) (env : Values) (G : String → Set MonoTy) : Prop :=
  ∀ x t, t ∈ G x → ∃ v, env.lookup x = some v ∧ Valid t v

variable {Valid : MonoTy → Value → Prop} {env : Values} {G : String → Set MonoTy}

/-- A new value fits a name at a set of its types. -/
theorem Fits.cons (h : Fits Valid env G) {v : Value} {S : Set MonoTy}
    (hv : ∀ t ∈ S, Valid t v) (x : String) :
    Fits Valid ((x, v) :: env) (Function.update G x S) := by
  intro y t ht
  by_cases hxy : y = x
  · subst hxy
    rw [Function.update_self] at ht
    exact ⟨v, List.lookup_cons_self, hv t ht⟩
  · rw [Function.update_of_ne hxy] at ht
    obtain ⟨w, hw, hvalid⟩ := h y t ht
    have hbeq : (y == x) = false := by simp [hxy]
    exact ⟨w, by rw [List.lookup_cons, hbeq]; exact hw, hvalid⟩

/-- The values that a closure keeps fit the names that it keeps. -/
theorem Fits.restrict (h : Fits Valid env G) (names : OrderedSet String) :
    Fits Valid (Eval.restrict env names) fun x => {t | x ∈ names ∧ t ∈ G x} := by
  rintro x t ⟨hx, ht⟩
  rw [Eval.lookup_restrict env names hx]
  exact h x t ht

/-- An environment is tight for some uses of names when it binds no name twice and every
name that it binds may be used. -/
structure Tight (env : Values) (G : String → Set MonoTy) : Prop where
  nodup : (env.map Prod.fst).Nodup
  used : ∀ x v, (x, v) ∈ env → (G x).Nonempty

/-- The values that a closure keeps are tight for the names that it keeps, when all of these
may be used. -/
theorem tight_restrict {names : OrderedSet String} (env : Values)
    (h : ∀ x ∈ names, (G x).Nonempty) :
    Tight (Eval.restrict env names) fun x => {t | x ∈ names ∧ t ∈ G x} := by
  constructor
  · have hsublist : ((Eval.restrict env names).map Prod.fst).Sublist names.toList := by
      rw [Eval.restrict]
      generalize names.toList = xs
      induction xs with
      | nil => exact .slnil
      | cons x xs ih =>
          cases hx : env.lookup x with
          | none => simpa [hx] using ih.cons x
          | some v => simpa [hx] using ih
    exact hsublist.nodup names.nodup
  · intro x v hmem
    obtain ⟨y, hy, heq⟩ := List.mem_filterMap.1 hmem
    obtain ⟨w, -, hw⟩ := Option.map_eq_some_iff.1 heq
    cases hw
    obtain ⟨t, ht⟩ := h x hy
    exact ⟨t, hy, ht⟩

end Values

/-! ## Evaluation of typed expressions -/

namespace ValueModel

variable {L : EvalLogic} (M : ValueModel L) (fixable : Expr → MonoTy → Prop)

/-- An expression evaluates to values of its types in fitting environments. -/
def Evaluates (e : Expr) : Prop :=
  ∀ env G t, Values.Fits M.Valid env G → Expr.TypedBy fixable G e t →
    L.Holds (fun n => Eval.evaluate n env e) (M.Valid t)

/-- Functions with a body are values of their types in fitting environments that hold no
more than the body may use. -/
def Closes (x : String) (body : Expr) : Prop :=
  ∀ env G t u, Values.Fits M.Valid env G → Values.Tight env G →
    Expr.TypedBy fixable (Function.update G x {t}) body u →
    M.Valid (.fn t u) (.closure x body env)

variable {M fixable}

/-- A function closes over the values of the names that its body uses. -/
theorem Closes.close {x : String} {body : Expr} (h : M.Closes fixable x body) {env : Values}
    {G : String → Set MonoTy} (henv : Values.Fits M.Valid env G) {t u : MonoTy}
    (hbody : Expr.TypedBy fixable (Function.update G x {t}) body u) :
    L.Holds (fun _ => Eval.close env x body) (M.Valid (.fn t u)) := by
  refine L.ofRun fun c => ⟨.closure x body (Eval.restrict env (body.freeVars.erase x)), c, ?_, ?_⟩
  · rw [Eval.close_eq_pure hbody.hasHole_eq_false]
    rfl
  · refine h _ _ t u (henv.restrict _) (Values.tight_restrict env fun y hy => ?_)
      (hbody.weaken fun y hy v hv => ?_)
    · obtain ⟨hmem, hyx⟩ : y ∈ body.freeVars ∧ y ≠ x := by simpa using hy
      simpa [hyx] using hbody.exists_use hmem
    · by_cases hyx : y = x
      · subst hyx
        rwa [Function.update_self] at hv ⊢
      · rw [Function.update_of_ne hyx] at hv ⊢
        exact ⟨by simp [hy, hyx], hv⟩

/-- An operator that is used as a function is a value of its types. -/
theorem wrap {p : Primitive} {t : MonoTy} (hp : p.signature.Instance t)
    (hclose : ∀ x rest, (x :: rest).length = p.arity →
      M.Closes fixable x (rest.foldr .lam (Expr.saturation p (x :: rest)))) :
    L.Holds (fun _ => Eval.wrap p) (M.Valid t) := by
  refine L.ofRun fun c => ?_
  obtain ⟨v, c', hrun, hwrapped⟩ := Eval.exists_run_wrap p c
  refine ⟨v, c', hrun, ?_⟩
  obtain ⟨ts, u, rfl, hts⟩ := Primitive.exists_curried hp
  cases hwrapped with
  | list harity =>
      obtain rfl : p = .nil := by
        cases p <;> first | rfl | cases harity
      obtain rfl := List.length_eq_zero_iff.1 hts
      obtain ⟨s, -, hs⟩ := hp
      cases hs
      exact M.list_iff.2 ⟨[], rfl, by simp⟩
  | @closure x rest hlength hnodup =>
      have hempty : Values.Fits M.Valid [] fun _ => ∅ :=
        fun y s hs => absurd hs (Set.notMem_empty s)
      have htyped : Expr.TypedBy fixable (fun _ => ∅)
          ((x :: rest).foldr .lam (Expr.saturation p (x :: rest))) (ts.foldr .fn u) :=
        .wrapped hp hnodup (hts.trans hlength.symm)
      cases ts with
      | nil => cases hts.trans hlength.symm
      | cons t₁ ts =>
          cases htyped with
          | lam hbody =>
              exact hclose x rest hlength [] _ _ _ hempty ⟨.nil, by simp⟩ hbody

/-- An operator with all its arguments, and maybe more, is carried out on the arguments'
values. -/
theorem evaluateStep_of_saturated {e : Expr} {p : Primitive} {args : List Expr}
    (hsaturated : Eval.saturated? e = some (p, args))
    (hargs : ∀ a ∈ args, M.Evaluates fixable a) {env : Values} {G : String → Set MonoTy}
    {t : MonoTy} (henv : Values.Fits M.Valid env G) (h : Expr.TypedBy fixable G e t) :
    L.Holds (fun n => Eval.evaluateStep (Eval.evaluate n) env e) (M.Valid t) := by
  obtain ⟨rfl, harity, -⟩ := Eval.of_saturated? hsaturated
  obtain ⟨ts, htyped, hp⟩ := h.exists_spine
  have hlength : ts.length = args.length := htyped.length_eq
  have hvalues : L.Holds (fun n => Eval.evaluateAll (Eval.evaluate n) env args)
      fun vs => List.Forall₂ M.Valid ts vs := by
    refine M.evaluateAll (List.forall₂_iff_get.2 ⟨hlength, fun i hi hi' => ?_⟩)
    exact hargs _ (List.get_mem _ _) env G _ henv ((List.forall₂_iff_get.1 htyped).2 i hi hi')
  simp only [Eval.evaluateStep, hsaturated]
  refine L.bind hvalues fun vs hvs => ?_
  cases hp with
  | prim hp =>
      rw [← List.take_append_drop p.arity ts, List.foldr_append] at hp
      refine L.bind (M.applyPrimitive hp (by rw [List.length_take]; omega) ?_) fun f hf => ?_
      · exact List.forall₂_take p.arity hvs
      · exact M.applyAll (List.forall₂_drop p.arity hvs) hf

/-- One level of evaluation of a typed expression, given that its parts evaluate to values
of their types and that the functions it makes are values of theirs. -/
theorem evaluateStep {e : Expr} (hparts : ∀ a, sizeOf a < sizeOf e → M.Evaluates fixable a)
    (hlam : ∀ x body, e = .lam x body → M.Closes fixable x body)
    (hprim : ∀ p, e = .prim p → ∀ x rest, (x :: rest).length = p.arity →
      M.Closes fixable x (rest.foldr .lam (Expr.saturation p (x :: rest))))
    (hfix : ∀ body, e = .fix body → ∀ env G t, Values.Fits M.Valid env G → fixable body t →
      Expr.TypedBy fixable G body (.fn t t) →
      L.Holds (fun n => Eval.evaluateForm (Eval.evaluate n) env (.fix body)) (M.Valid t))
    {env : Values} {G : String → Set MonoTy} {t : MonoTy} (henv : Values.Fits M.Valid env G)
    (h : Expr.TypedBy fixable G e t) :
    L.Holds (fun n => Eval.evaluateStep (Eval.evaluate n) env e) (M.Valid t) := by
  cases hsaturated : Eval.saturated? e with
  | some found =>
      obtain ⟨p, args⟩ := found
      exact evaluateStep_of_saturated hsaturated
        (fun a ha => hparts a ((Eval.of_saturated? hsaturated).2.2 a ha)) henv h
  | none =>
      simp only [Eval.evaluateStep, hsaturated]
      cases h with
      | int => exact L.pure (M.int_iff.2 ⟨_, rfl⟩)
      | bool => exact L.pure (M.bool_iff.2 ⟨_, rfl⟩)
      | @var _ x _ ht =>
          obtain ⟨v, hv, hvalid⟩ := henv x t ht
          simp only [Eval.evaluateForm, hv]
          exact L.pure hvalid
      | @lam _ x body t u hbody => exact (hlam x body rfl).close henv hbody
      | @app _ f a t u hf ha =>
          refine L.bind (hparts f (by simp; omega) env G _ henv hf) fun g hg => ?_
          refine L.bind (hparts a (by simp) env G _ henv ha) fun v hv => ?_
          exact M.apply hg hv
      | @letIn _ x value body S u hnonempty hvalue hbody =>
          have hvalues : L.Holds (fun n => Eval.evaluate n env value)
              fun v => ∀ s ∈ S, M.Valid s v :=
            L.inter hnonempty fun s hs =>
              hparts value (by simp; omega) env G s henv (hvalue s hs)
          refine L.bind hvalues fun v hv => ?_
          exact hparts body (by simp) _ _ _ (henv.cons hv x) hbody
      | @ifThenElse _ test onTrue onFalse t htest htrue hfalse =>
          refine L.bind (hparts test (by simp; omega) env G _ henv htest) fun v hv => ?_
          obtain ⟨b, rfl⟩ := M.bool_iff.1 hv
          cases b with
          | true => exact hparts onTrue (by simp; omega) env G _ henv htrue
          | false => exact hparts onFalse (by simp) env G _ henv hfalse
      | @fix _ body t hfixable hbody => exact hfix body rfl env G t henv hfixable hbody
      | @list _ elements t helements =>
          have hvalues : L.Holds (fun n => Eval.evaluateAll (Eval.evaluate n) env elements)
              fun vs => List.Forall₂ M.Valid (elements.map fun _ => t) vs := by
            refine M.evaluateAll (List.forall₂_map_left_iff.2 (List.forall₂_same.2 ?_))
            intro e he
            have hsize : sizeOf e < sizeOf elements := List.sizeOf_lt_of_mem he
            exact hparts e (by simp; omega) env G t henv (helements e he)
          refine L.map hvalues fun vs hvs => M.list_iff.2 ⟨vs, rfl, fun v hv => ?_⟩
          obtain ⟨i, rfl⟩ := List.mem_iff_get.1 hv
          rw [List.forall₂_map_left_iff, List.forall₂_iff_get] at hvs
          exact hvs.2 i (by rw [hvs.1]; exact i.isLt) i.isLt
      | @prim _ p t hp => exact wrap hp (hprim p rfl)

end ValueModel

end LetPoly
