import LetPoly.Proofs.Evaluation.Safety
import LetPoly.Proofs.Inference.Completeness
import LetPoly.Value.Typing

/-!
# Schemes of values

A value has a scheme of its own, which is inferred from the value alone: each value that a
closure keeps is given the scheme of its own type, and the function is typed with these.  The
scheme of the value of an expression is at least as general as the scheme of the expression.
It may be more general, since a value no longer shows the branches that were not taken.

The induction is on the typing of values.  A typing of a closure allows its names some uses,
all of which are instances of the schemes that the kept values have by induction; so the
closure is typed with these schemes, and completeness of inference applies.

Main results:

- Theorem {lit}`ValueTyped.realized`: a typing of a value extends to a solution of the run
  on this value.
- Theorem {lit}`ValueTyped.exists_scheme`: a typed value has a scheme of which its types are
  instances.
- Theorem {lit}`Expr.scheme_eval_general`: the scheme of a value is at least as general as
  the scheme of its expression.
-/

namespace LetPoly

/-- The outcome of a run that is followed by a check without fresh variables. -/
theorem Fresh.fst_runFrom_bind_lift {α β : Type} (x : Fresh Empty α) (f : α → Checked Empty β)
    (c : Int) : ((x >>= fun a => lift (f a)).runFrom c).1 = (x.runFrom c).1 >>= f := by
  have hlift : ∀ (y : Checked Empty β) (d : Int), ((lift y).runFrom d).1 = y := by
    intro y d
    cases y <;> rfl
  rw [runFrom, runFrom, EStateM.run_bind]
  cases x.run c with
  | error error c₁ => rfl
  | ok a c₁ => exact hlift (f a) c₁

namespace Value

/-! ## Runs of inference on values -/

/-- Inference on a value succeeds with a result and leaves the counter at a value. -/
def Infers (c : Int) (v : Value) (r : Typed Empty) (c' : Int) : Prop :=
  v.infer.run c = .ok r c'

/-- Inference on list elements succeeds with constraints. -/
def InfersAll (c : Int) (element : MonoTy) (vs : List Value) (C : List (Constraint Empty))
    (c' : Int) : Prop :=
  (inferElements element vs).run c = .ok C c'

section Forms

variable {c c' : Int} {r : Typed Empty}

theorem infers_int {n : Int} : Infers c (.int n) r c' ↔ r = ⟨.int, []⟩ ∧ c' = c := by
  rw [Infers, infer, Fresh.run_pure_eq_ok]

theorem infers_bool {b : Bool} : Infers c (.bool b) r c' ↔ r = ⟨.bool, []⟩ ∧ c' = c := by
  rw [Infers, infer, Fresh.run_pure_eq_ok]

theorem infers_list {vs : List Value} :
    Infers c (.list vs) r c' ↔
      ∃ C, InfersAll (c + 1 + 1) (.var (typeVarName (c + 1 + 1))) vs C c' ∧
        r = ⟨.var (typeVarName (c + 1)), C ++
          [⟨.var (typeVarName (c + 1)), .list (.var (typeVarName (c + 1 + 1)))⟩]⟩ := by
  simp only [Infers, InfersAll, infer, Fresh.run_bind_eq_ok, Fresh.run_var_eq_ok,
    Fresh.run_pure_eq_ok]
  constructor
  · rintro ⟨t, c₁, ⟨rfl, rfl⟩, u, c₂, ⟨rfl, rfl⟩, C, c₃, hC, rfl, rfl⟩
    exact ⟨C, hC, rfl⟩
  · rintro ⟨C, hC, rfl⟩
    exact ⟨_, _, ⟨rfl, rfl⟩, _, _, ⟨rfl, rfl⟩, C, c', hC, rfl, rfl⟩

theorem infers_pair {a b : Value} :
    Infers c (.pair a b) r c' ↔
      ∃ ra c₁ rb c₂, Infers c a ra c₁ ∧ Infers c₁ b rb c₂ ∧ c' = c₂ + 1 ∧
        r = ⟨.var (typeVarName c'), ra.constraints ++ rb.constraints ++
          [⟨.var (typeVarName c'), .pair ra.type rb.type⟩]⟩ := by
  simp only [Infers, infer, Fresh.run_bind_eq_ok, Fresh.run_var_eq_ok, Fresh.run_pure_eq_ok]
  constructor
  · rintro ⟨ra, c₁, ha, rb, c₂, hb, t, c₃, ⟨rfl, rfl⟩, rfl, rfl⟩
    exact ⟨ra, c₁, rb, c₂, ha, hb, rfl, rfl⟩
  · rintro ⟨ra, c₁, rb, c₂, ha, hb, rfl, rfl⟩
    exact ⟨ra, c₁, ha, rb, c₂, hb, _, _, ⟨rfl, rfl⟩, rfl, rfl⟩

/-- A closure is typed as its function, with the schemes of the values that it keeps. -/
theorem infers_closure {x : String} {body : Expr} {captured : Values} :
    Infers c (.closure x body captured) r c' ↔
      ∃ schemes, capturedSchemes captured = .ok schemes ∧
        Expr.Infers (.ofList schemes) c (.lam x body) r c' := by
  simp only [Infers, Expr.Infers, infer, Fresh.run_bind_eq_ok, Fresh.run_lift_eq_ok]
  constructor
  · rintro ⟨schemes, c₁, ⟨hschemes, rfl⟩, hrun⟩
    exact ⟨schemes, hschemes, hrun⟩
  · rintro ⟨schemes, hschemes, hrun⟩
    exact ⟨schemes, c, ⟨hschemes, rfl⟩, hrun⟩

theorem infersAll_nil {element : MonoTy} {C : List (Constraint Empty)} :
    InfersAll c element [] C c' ↔ C = [] ∧ c' = c := by
  rw [InfersAll, inferElements, Fresh.run_pure_eq_ok]

theorem infersAll_cons {element : MonoTy} {v : Value} {vs : List Value}
    {C : List (Constraint Empty)} :
    InfersAll c element (v :: vs) C c' ↔
      ∃ t c₁ D, Infers c v t c₁ ∧ InfersAll c₁ element vs D c' ∧
        C = t.constraints ++ ⟨t.type, element⟩ :: D := by
  simp only [Infers, InfersAll, inferElements, Fresh.run_bind_eq_ok, Fresh.run_pure_eq_ok]
  constructor
  · rintro ⟨t, c₁, ht, D, c₂, hD, rfl, rfl⟩
    exact ⟨t, c₁, D, ht, hD, rfl⟩
  · rintro ⟨t, c₁, D, ht, hD, rfl⟩
    exact ⟨t, c₁, ht, D, c', hD, rfl, rfl⟩

end Forms

/-! ## Schemes of values -/

/-- The scheme of a value comes from a run that starts with no variables made. -/
theorem scheme_eq (v : Value) :
    (v.scheme : Checked Empty (Scheme Empty)) =
      (v.infer.runFrom 0).1 >>= fun r => r.solved >>= Ty.closeOver := by
  rw [scheme, type, Fresh.fst_runFrom_bind_lift, bind_assoc]

theorem scheme_of_infers {v : Value} {r : Typed Empty} {c : Int} {s : Subst Empty}
    (h : Infers 0 v r c) (hs : Constraint.solve r.constraints = .ok s) :
    v.scheme = (r.type.apply s).closeOver := by
  have hsolved : r.solved = .ok (r.type.apply s) := by
    rw [Typed.solved, hs]
    rfl
  have hrun : v.infer.runFrom 0 = (.ok r, c) := by rw [Fresh.runFrom, h]
  rw [scheme_eq, hrun]
  change r.solved >>= Ty.closeOver = _
  rw [hsolved]
  rfl

/-- The schemes of kept values are the schemes of the values one by one. -/
theorem capturedSchemes_cons (x : String) (v : Value) (rest : Values) :
    (capturedSchemes ((x, v) :: rest) : Checked Empty (List (String × Scheme Empty))) = do
      let σ ← v.scheme
      let schemes ← capturedSchemes rest
      return (x, σ) :: schemes := by
  rw [capturedSchemes, scheme_eq, bind_assoc]
  simp only [bind_assoc]

/-- Kept values that have schemes have them together. -/
theorem exists_capturedSchemes {captured : Values}
    (h : ∀ x v, (x, v) ∈ captured → ∃ σ : Scheme Empty, v.scheme = .ok σ) :
    ∃ schemes, capturedSchemes captured = .ok schemes ∧
      schemes.map Prod.fst = captured.map Prod.fst ∧
      ∀ (x : String) (σ : Scheme Empty),
        (x, σ) ∈ schemes ↔ ∃ v, (x, v) ∈ captured ∧ v.scheme = .ok σ := by
  induction captured with
  | nil => exact ⟨[], rfl, rfl, by simp⟩
  | cons entry rest ih =>
      obtain ⟨x, v⟩ := entry
      obtain ⟨σ, hσ⟩ := h x v List.mem_cons_self
      obtain ⟨schemes, hschemes, hnames, hmem⟩ :=
        ih fun y w hw => h y w (List.mem_cons_of_mem _ hw)
      refine ⟨(x, σ) :: schemes, ?_, by simp [hnames], fun y τ => ?_⟩
      · rw [capturedSchemes_cons, hσ, hschemes]
        rfl
      · rw [List.mem_cons, hmem]
        constructor
        · rintro (heq | ⟨w, hw, hτ⟩)
          · cases heq
            exact ⟨v, List.mem_cons_self, hσ⟩
          · exact ⟨w, List.mem_cons_of_mem _ hw, hτ⟩
        · rintro ⟨w, hw, hτ⟩
          rcases List.mem_cons.1 hw with heq | hw
          · cases heq
            rw [hσ] at hτ
            cases hτ
            exact Or.inl rfl
          · exact Or.inr ⟨w, hw, hτ⟩

/-! ## Typings as solutions -/

/-- From every counter a run on a value succeeds, and every assignment extends to a solution
that gives the value a type. -/
def Realized (v : Value) (t : MonoTy) : Prop :=
  ∀ (c : Int) (θ : Assignment), ∃ r c' ρ, Infers c v r c' ∧ Expr.Tracked ∅ c r c' ∧
    ρ.Extends θ c c' ∧ Solves ρ r.constraints ∧ r.type.inst ρ = t

/-- A value that can be given a type has a closed scheme, of which the type is an instance. -/
theorem Realized.exists_scheme {v : Value} {t : MonoTy} (h : v.Realized t) :
    ∃ σ, v.scheme = .ok σ ∧ σ.Closed ∧ σ.Instance t := by
  obtain ⟨r, c, ρ, hrun, -, -, hsolves, htype⟩ := h 0 Ty.var
  obtain ⟨s, hs, hgeneral⟩ := Constraint.exists_solve_of_solves hsolves
  obtain ⟨σ, hclose, hclosed, hinstances⟩ := (r.type.apply s).exists_closeOver
  refine ⟨σ, (scheme_of_infers hrun hs).trans hclose, hclosed, (hinstances t).2 ⟨ρ, ?_⟩⟩
  rw [(hgeneral.absorbed hsolves).inst_apply, htype]

/-- The elements of a list extend an assignment one after the other. -/
theorem realized_elements {element t : MonoTy} {vs : List Value}
    (ih : ∀ v ∈ vs, v.Realized t) {c : Int} {θ : Assignment}
    (helement : ∀ a ∈ element.freeVars, ∀ d, ¬ Minted c d a) (ht : element.inst θ = t) :
    ∃ C c' ρ, InfersAll c element vs C c' ∧ c ≤ c' ∧
      (∀ {a}, Constraint.MentionedIn C a → a ∈ element.freeVars ∨ Env.Reaches ∅ c c' a) ∧
      ρ.Extends θ c c' ∧ Solves ρ C := by
  induction vs generalizing c θ with
  | nil =>
      exact ⟨[], c, θ, infersAll_nil.2 ⟨rfl, rfl⟩, le_rfl,
        fun ha => absurd ha Constraint.mentionedIn_nil, .refl θ c c, solves_nil θ⟩
  | cons v vs ihvs =>
      obtain ⟨r, c₁, ρ, hrun, htracked, hext, hsolves, htype⟩ := ih v List.mem_cons_self c θ
      have hle := htracked.le
      have hρ : element.inst ρ = t := by
        rw [← ht]
        exact Ty.inst_congr fun a ha => hext a (helement a ha c₁)
      obtain ⟨C, c₂, π, hrest, hle', hmentions, hext', hsolves'⟩ :=
        ihvs (fun v hv => ih v (List.mem_cons_of_mem _ hv))
          (fun a ha d hnew => helement a ha d (hnew.mono hle le_rfl)) hρ
      have hπ : element.inst π = t := by
        rw [← hρ]
        exact Ty.inst_congr fun a ha =>
          hext' a fun hnew => helement a ha c₂ (hnew.mono hle le_rfl)
      refine ⟨_, c₂, π, infersAll_cons.2 ⟨r, c₁, C, hrun, hrest, rfl⟩, by omega, ?_,
        hext.trans hext' hle hle', ?_⟩
      · intro a ha
        have hfirst : r.Mentions a → Env.Reaches ∅ c c₂ a :=
          fun h => (htracked.reaches h).mono le_rfl hle'
        have hothers : Constraint.MentionedIn C a →
            a ∈ element.freeVars ∨ Env.Reaches ∅ c c₂ a :=
          fun h => (hmentions h).imp_right fun h => h.mono hle le_rfl
        simp only [Constraint.mentionedIn_append, Constraint.mentionedIn_cons,
          Constraint.Mentions] at ha
        rw [Typed.Mentions] at hfirst
        tauto
      · have hempty := Env.closed_empty.apart c
        rw [solves_append, solves_cons]
        refine ⟨hext'.solves htracked hempty hsolves, ?_, hsolves'⟩
        rw [hπ, hext'.inst_type htracked hempty, htype]

/-- A list of values that can be given one type. -/
theorem realized_list {t : MonoTy} {vs : List Value} (ih : ∀ v ∈ vs, v.Realized t) :
    (Value.list vs).Realized (.list t) := by
  intro c θ
  -- the list's variable comes first, then that of its elements
  let θ₁ : Assignment := Function.update θ (typeVarName (c + 1)) (.list t)
  let θ₂ : Assignment := Function.update θ₁ (typeVarName (c + 1 + 1)) t
  have hext₁ : θ₁.Extends θ c (c + 1) := .update θ c (.list t)
  have hext₂ : θ₂.Extends θ₁ (c + 1) (c + 1 + 1) := .update θ₁ (c + 1) t
  have hext : θ₂.Extends θ c (c + 1 + 1) := hext₁.trans hext₂ (by omega) (by omega)
  have helement : θ₂ (typeVarName (c + 1 + 1)) = t := Function.update_self ..
  have hwhole : θ₂ (typeVarName (c + 1)) = .list t := by
    rw [hext₂ _ ((minted_succ c).not_minted le_rfl)]
    exact Function.update_self ..
  have hnew : ∀ a ∈ (Ty.var (typeVarName (c + 1 + 1)) : MonoTy).freeVars,
      ∀ d, ¬ Minted (c + 1 + 1) d a := by
    intro a ha d
    rw [Ty.mem_freeVars_var] at ha
    exact ha ▸ (minted_succ (c + 1)).not_minted le_rfl
  obtain ⟨C, c', π, hrun, hle, hmentions, hext', hsolves⟩ :=
    realized_elements (θ := θ₂) ih hnew helement
  have hwhole' : π (typeVarName (c + 1)) = .list t := by
    rw [hext' _ ((minted_succ c).not_minted (by omega)), hwhole]
  have helement' : π (typeVarName (c + 1 + 1)) = t := by
    rw [hext' _ ((minted_succ (c + 1)).not_minted le_rfl), helement]
  refine ⟨_, c', π, infers_list.2 ⟨C, hrun, rfl⟩, ⟨by omega, fun {a} ha => ?_⟩,
    hext.trans hext' (by omega) hle, ?_, hwhole'⟩
  · have hlist : a = typeVarName (c + 1) → Env.Reaches ∅ c c' a :=
      fun h => Or.inr (h ▸ (minted_succ c).mono le_rfl (by omega))
    have helement : a = typeVarName (c + 1 + 1) → Env.Reaches ∅ c c' a :=
      fun h => Or.inr (h ▸ (minted_succ (c + 1)).mono (by omega) hle)
    have helements : Constraint.MentionedIn C a →
        a = typeVarName (c + 1 + 1) ∨ Env.Reaches ∅ c c' a :=
      fun h => (hmentions h).imp Ty.mem_freeVars_var.1 fun h => h.mono (by omega) le_rfl
    simp only [Typed.Mentions, Constraint.mentionedIn_append, Constraint.mentionedIn_cons,
      Constraint.Mentions, Ty.mem_freeVars_list, Ty.mem_freeVars_var,
      Constraint.mentionedIn_nil] at ha
    grind
  · simp only [solves_append, solves_cons, solves_nil, and_true, Ty.inst_list, Ty.inst_var]
    exact ⟨hsolves, by rw [hwhole', helement']⟩

/-- A pair of values that can be given types. -/
theorem realized_pair {t u : MonoTy} {a b : Value} (iha : a.Realized t) (ihb : b.Realized u) :
    (Value.pair a b).Realized (.pair t u) := by
  intro c θ
  obtain ⟨ra, c₁, ρ₁, ha, hta, hext₁, hsolvesa, htypea⟩ := iha c θ
  obtain ⟨rb, c₂, ρ₂, hb, htb, hext₂, hsolvesb, htypeb⟩ := ihb c₁ ρ₁
  have hempty := Env.closed_empty.apart c
  have hempty₁ := Env.closed_empty.apart c₁
  let π : Assignment := Function.update ρ₂ (typeVarName (c₂ + 1)) (.pair t u)
  have hext₃ : π.Extends ρ₂ c₂ (c₂ + 1) := .update ρ₂ c₂ (.pair t u)
  have hresult : π (typeVarName (c₂ + 1)) = .pair t u := Function.update_self ..
  have hlater : π.Extends ρ₁ c₁ (c₂ + 1) := hext₂.trans hext₃ htb.le (by omega)
  refine ⟨_, c₂ + 1, π, infers_pair.2 ⟨ra, c₁, rb, c₂, ha, hb, rfl, rfl⟩,
    (hta.both htb).extend (by omega) fun {d} hd => ?_,
    hext₁.trans hlater hta.le (le_trans htb.le (by omega)), ?_, hresult⟩
  · have hnew : Minted c (c₂ + 1) (typeVarName (c₂ + 1)) :=
      (minted_succ c₂).mono (hta.both htb).le le_rfl
    rw [Typed.mentions_both]
    simp only [Typed.Mentions, Constraint.mentionedIn_append, Constraint.mentionedIn_cons,
      Constraint.Mentions, Ty.mem_freeVars_pair, Ty.mem_freeVars_var,
      Constraint.mentionedIn_nil] at hd ⊢
    grind
  · simp only [solves_append, solves_cons, solves_nil, and_true, Ty.inst_pair, Ty.inst_var]
    refine ⟨⟨hlater.solves hta hempty hsolvesa, hext₃.solves htb hempty₁ hsolvesb⟩, ?_⟩
    rw [hlater.inst_type hta hempty, hext₃.inst_type htb hempty₁, htypea, htypeb, hresult]

/-! ## Closures -/

/-- In bindings without repeated names a name has the value that is listed for it. -/
theorem lookup_eq_some_iff_mem {α : Type} {entries : List (String × α)} {x : String} {a : α}
    (hnodup : (entries.map Prod.fst).Nodup) :
    entries.lookup x = some a ↔ (x, a) ∈ entries := by
  induction entries with
  | nil => simp
  | cons entry rest ih =>
      obtain ⟨y, b⟩ := entry
      rw [List.map_cons, List.nodup_cons] at hnodup
      by_cases hxy : x = y
      · subst hxy
        have hnot : (x, a) ∉ rest := fun hmem =>
          hnodup.1 (List.mem_map.2 ⟨(x, a), hmem, rfl⟩)
        simp [hnot, eq_comm]
      · have hbeq : (x == y) = false := by simp [hxy]
        rw [List.lookup_cons, hbeq, List.mem_cons]
        simp [ih hnodup.2, hxy]

/-- A closure can be given a type when its body has it with the names that the closure keeps
used at types that their values can be given. -/
theorem realized_closure {fixable : Expr → MonoTy → Prop} {x : String} {body : Expr}
    {captured : Values} {G : String → Set MonoTy} {t u : MonoTy}
    (hdefined : ∀ y s, s ∈ G y → (captured.lookup y).isSome)
    (htight : Values.Tight captured G)
    (ih : ∀ y s v, s ∈ G y → captured.lookup y = some v → v.Realized s)
    (hbody : Expr.TypedBy fixable (Function.update G x {t}) body u) :
    (Value.closure x body captured).Realized (.fn t u) := by
  have hscheme : ∀ y v, (y, v) ∈ captured → ∃ σ : Scheme Empty, v.scheme = .ok σ := by
    intro y v hmem
    obtain ⟨s, hs⟩ := htight.used y v hmem
    have hlookup := (lookup_eq_some_iff_mem htight.nodup).2 hmem
    obtain ⟨σ, hσ, -⟩ := (ih y s v hs hlookup).exists_scheme
    exact ⟨σ, hσ⟩
  obtain ⟨schemes, hcaptured, hnames, hmem⟩ := exists_capturedSchemes hscheme
  let Γ : Env Empty := .ofList schemes
  have hget : ∀ y σ, Γ.get? y = some σ ↔ ∃ v, captured.lookup y = some v ∧ v.scheme = .ok σ := by
    intro y σ
    have hnodup : (schemes.reverse.map Prod.fst).Nodup := by
      rw [List.map_reverse, List.nodup_reverse, hnames]
      exact htight.nodup
    rw [Bindings.get?_ofList, lookup_eq_some_iff_mem hnodup, List.mem_reverse, hmem]
    simp only [lookup_eq_some_iff_mem htight.nodup]
  have hclosed : Γ.Closed := by
    intro y σ hσ
    obtain ⟨v, hv, hscheme⟩ := (hget y σ).1 hσ
    obtain ⟨s, hs⟩ := htight.used y v ((lookup_eq_some_iff_mem htight.nodup).1 hv)
    obtain ⟨τ, hτ, hclosed, -⟩ := (ih y s v hs hv).exists_scheme
    rw [hscheme] at hτ
    cases hτ
    exact hclosed
  -- the uses that the typing makes of a name are instances of the scheme of its value
  have huses : ∀ θ y, G y ⊆ Γ.uses θ y := by
    intro θ y s hs
    obtain ⟨v, hv⟩ := Option.isSome_iff_exists.1 (hdefined y s hs)
    obtain ⟨σ, hσ, hclosed, hinstance⟩ := (ih y s v hs hv).exists_scheme
    refine ⟨σ, (hget y σ).2 ⟨v, hv, hσ⟩, ?_⟩
    rw [hclosed.instances_eq θ Ty.var]
    exact Scheme.instance_iff.1 hinstance
  intro c θ
  obtain ⟨r, c', ρ, hrun, hext, hsolves, htype⟩ :=
    (Expr.TypedBy.lam hbody).realized (hclosed.apart c) (huses θ)
  have htracked : Expr.Tracked ∅ c r c' :=
    ⟨hrun.mentions.le, fun ha => (hrun.mentions.reaches ha).imp_left
      fun hfree => absurd hfree (hclosed.not_mem_freeVars _)⟩
  exact ⟨r, c', ρ, infers_closure.2 ⟨schemes, hcaptured, hrun⟩, htracked, hext, hsolves, htype⟩

end Value

/-! ## Typed values -/

namespace ValueTyped

variable {fixable : Expr → MonoTy → Prop} {t : MonoTy} {v : Value}

/-- A typing of a value extends every assignment to a solution of a run on the value. -/
theorem realized (h : ValueTyped fixable t v) : v.Realized t := by
  induction h with
  | int => exact fun c θ => ⟨_, c, θ, Value.infers_int.2 ⟨rfl, rfl⟩,
      ⟨le_rfl, by simp [Typed.Mentions, Ty.int]⟩, .refl θ c c, solves_nil θ, rfl⟩
  | bool => exact fun c θ => ⟨_, c, θ, Value.infers_bool.2 ⟨rfl, rfl⟩,
      ⟨le_rfl, by simp [Typed.Mentions, Ty.bool]⟩, .refl θ c c, solves_nil θ, rfl⟩
  | list _ ih => exact Value.realized_list ih
  | pair _ _ iha ihb => exact Value.realized_pair iha ihb
  | closure hdefined _ htight hbody ih => exact Value.realized_closure hdefined htight ih hbody

/-- A typed value has a scheme, of which all its types are instances. -/
theorem exists_scheme {S : Set MonoTy} (hS : S.Nonempty)
    (h : ∀ t ∈ S, ValueTyped fixable t v) :
    ∃ τ, v.scheme = .ok τ ∧ ∀ t ∈ S, τ.Instance t := by
  obtain ⟨s, hs⟩ := hS
  obtain ⟨τ, hτ, -⟩ := (h s hs).realized.exists_scheme
  refine ⟨τ, hτ, fun t ht => ?_⟩
  obtain ⟨τ', hτ', -, hinstance⟩ := (h t ht).realized.exists_scheme
  rw [hτ] at hτ'
  cases hτ'
  exact hinstance

end ValueTyped

/-- The scheme of a value is at least as general as the scheme of its expression: when
evaluation of an expression whose fixed points are functions gives a value, the value has a
scheme, and every type that the expression's scheme stands for is an instance of it. -/
theorem Expr.scheme_eval_general {e : Expr} {σ : Scheme Empty} {limit : Nat} {v : Value}
    (hnames : ∀ x ∈ e.names, Unnumbered x) (h : e.scheme ∅ = .ok σ)
    (hfix : e.fixesFunctions ∅ = true) (heval : e.eval limit [] = .ok v) :
    ∃ τ, v.scheme = .ok τ ∧ ∀ t, σ.Instance t → τ.Instance t := by
  have hempty : Values.Fits (ValueTyped FixesFunction) [] (Env.uses ∅ Ty.var) := by
    rintro x t ⟨τ, hτ, -⟩
    simp at hτ
  have hsafe := Expr.safe_eval Env.closed_empty h hfix hnames hempty limit
  rw [heval] at hsafe
  obtain ⟨τ, hτ, hinstances⟩ := ValueTyped.exists_scheme (σ.instances_nonempty Ty.var) hsafe
  exact ⟨τ, hτ, fun t ht => hinstances t (Scheme.instance_iff.1 ht)⟩

/-- A choice between pairs of a list and a function.  The function that is chosen keeps a
value, the other one is a fixed point. -/
def chosenPair : Expr :=
  .letIn "tag" (.lam "x" (.lam "y" ((Expr.prim .pair).apps [.var "x", .var "y"])))
    (.ifThenElse (.bool true)
      ((Expr.prim .pair).apps [.prim .nil, .app (.var "tag") (.int 1)])
      ((Expr.prim .pair).apps [.list [.int 1],
        .fix (.lam "self" (.lam "z" ((Expr.var "tag").apps [.int 2, .var "z"])))]))

/-- The scheme of this choice, in which the branch not taken makes the list one of integers. -/
def chosenPairScheme : Scheme Empty :=
  ⟨["a"], .pair (.list .int) (.fn (.var "a") (.pair .int (.var "a")))⟩

/-- The value of this choice. -/
def chosenPairValue : Value :=
  .pair (.list [])
    (.closure "y" ((Expr.prim .pair).apps [.var "x", .var "y"]) [("x", .int 1)])

/-- The scheme of the value, in which nothing is said about the elements of the list. -/
def chosenPairValueScheme : Scheme Empty :=
  ⟨["a", "b"], .pair (.list (.var "a")) (.fn (.var "b") (.pair .int (.var "b")))⟩

/-- A value whose scheme stands for more types than that of its expression. -/
theorem Expr.scheme_eval_general_chosenPair :
    (∀ x ∈ chosenPair.names, Unnumbered x) ∧ chosenPair.scheme ∅ = .ok chosenPairScheme ∧
      chosenPair.fixesFunctions ∅ = true ∧ chosenPair.eval 10 [] = .ok chosenPairValue ∧
      chosenPairValue.scheme = .ok chosenPairValueScheme ∧
      (∀ t, chosenPairScheme.Instance t → chosenPairValueScheme.Instance t) ∧
      ∃ t, chosenPairValueScheme.Instance t ∧ ¬ chosenPairScheme.Instance t := by
  have hnames : ∀ x ∈ chosenPair.names, Unnumbered x := by decide
  have hscheme : chosenPair.scheme ∅ = .ok chosenPairScheme :=
    Checked.eq_ok_of_toOption (by decide +kernel)
  have hfix : chosenPair.fixesFunctions ∅ = true := by decide +kernel
  have heval : chosenPair.eval 10 [] = .ok chosenPairValue := rfl
  have hvalue : chosenPairValue.scheme = .ok chosenPairValueScheme :=
    Checked.eq_ok_of_toOption (by decide +kernel)
  obtain ⟨τ, hτ, hgeneral⟩ := Expr.scheme_eval_general hnames hscheme hfix heval
  rw [hvalue] at hτ
  cases hτ
  refine ⟨hnames, hscheme, hfix, heval, hvalue, hgeneral, _,
    ⟨.ofList [("a", .bool), ("b", .bool)], by decide, rfl⟩, ?_⟩
  rintro ⟨s, -, hs⟩
  injection hs with hlist
  injection hlist with helement
  exact absurd (show (Ty.int : MonoTy) = .bool from helement) (by decide)

end LetPoly
