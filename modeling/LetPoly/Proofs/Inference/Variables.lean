import LetPoly.Proofs.Inference.Runs

/-!
# Type variables of a run

Which type variables a run of inference can mention: those that are free in its environment
and those that it made itself.  From this follows the discipline on environments under which
the solution of a local definition captures nothing.

Main results:

- Theorem {lit}`Expr.Infers.mentions`: where the variables of a run come from.
- Theorem {lit}`Env.Apart.bindSolved`: the discipline is kept by a local definition.
- Theorem {lit}`Env.Apart.uses_apply`: solving a local definition keeps the uses of the
  names in scope.
-/

namespace LetPoly

/-! ## Free variables of environments -/

namespace Env

/-- What is free in a scheme is free in the environment. -/
theorem mem_freeVars_of_get? {Γ : Env Empty} {x : String} {σ : Scheme Empty} {a : String}
    (h : Γ.get? x = some σ) (ha : a ∈ σ.freeVars) : a ∈ Γ.freeVars :=
  mem_freeVars.2 ⟨x, σ, h, ha⟩

/-- Binding a name frees only what is free in its scheme. -/
theorem mem_freeVars_insert {Γ : Env Empty} {x : String} {σ : Scheme Empty} {a : String}
    (h : a ∈ Env.freeVars (Γ.insert x σ)) : a ∈ σ.freeVars ∨ a ∈ Γ.freeVars := by
  obtain ⟨y, τ, hy, ha⟩ := mem_freeVars.1 h
  rw [Bindings.get?_insert] at hy
  split_ifs at hy with heq
  · cases hy
    exact Or.inl ha
  · exact Or.inr (mem_freeVars_of_get? hy ha)

/-- The free variables of a substituted environment come from the images of its free
variables. -/
theorem exists_of_mem_freeVars_apply {Γ : Env Empty} {s : Subst Empty} {b : String}
    (h : b ∈ (Γ.apply s).freeVars) : ∃ a ∈ Γ.freeVars, b ∈ (s.image a).freeVars := by
  obtain ⟨x, σ', hx, hb⟩ := mem_freeVars.1 h
  rw [get?_apply, Option.map_eq_some_iff] at hx
  obtain ⟨σ, hx, rfl⟩ := hx
  obtain ⟨a, ha, hba⟩ := Scheme.exists_of_mem_freeVars_apply hb
  exact ⟨a, mem_freeVars_of_get? hx ha, hba⟩

end Env

namespace Ty

/-- The variables are quantified that the environment leaves free. -/
theorem mem_bound_generalize {t : MonoTy} {Γ : Env Empty} {a : String} :
    a ∈ (t.generalize Γ).bound ↔ a ∈ t.freeVars ∧ ¬ a ∈ Γ.freeVars := by
  rw [generalize, OrderedSet.mem_toList, OrderedSet.mem_sdiff]

/-- What a generalization leaves free is free in the environment. -/
theorem mem_freeVars_generalize {t : MonoTy} {Γ : Env Empty} {a : String}
    (h : a ∈ (t.generalize Γ).freeVars) : a ∈ Γ.freeVars := by
  obtain ⟨hbody, hbound⟩ := Scheme.mem_freeVars.1 h
  rw [mem_bound_generalize] at hbound
  by_contra hfree
  exact hbound ⟨hbody, hfree⟩

/-- A generalization looks at the environment for the variables of the type only. -/
theorem generalize_congr {t : MonoTy} {Γ Δ : Env Empty}
    (h : ∀ a ∈ t.freeVars, a ∈ Γ.freeVars ↔ a ∈ Δ.freeVars) :
    t.generalize Γ = t.generalize Δ := by
  have hbound : (t.freeVars \ Γ.freeVars).toList = (t.freeVars \ Δ.freeVars).toList := by
    refine List.filter_congr fun a ha => ?_
    simp [OrderedSet.contains, h a ha]
  rw [generalize, generalize, hbound]

end Ty

/-- A local definition brings no new free variables into the environment. -/
theorem Env.mem_freeVars_bindSolved {Γ : Env Empty} {s : Subst Empty} {x : String} {t : MonoTy}
    {a : String} (h : a ∈ (Γ.bindSolved s x t).freeVars) : a ∈ (Γ.apply s).freeVars := by
  rcases mem_freeVars_insert h with hnew | hold
  · exact Ty.mem_freeVars_generalize hnew
  · exact hold

/-! ## Variables of a run -/

/-- A variable is free in an environment or was made while the counter moved. -/
def Env.Reaches (Γ : Env Empty) (c c' : Int) (a : String) : Prop :=
  a ∈ Γ.freeVars ∨ Minted c c' a

/-- More numbers reach more variables. -/
theorem Env.Reaches.mono {Γ : Env Empty} {c c' d d' : Int} {a : String}
    (h : Γ.Reaches c c' a) (hc : d ≤ c) (hc' : c' ≤ d') : Γ.Reaches d d' a :=
  h.imp_right fun hnew => hnew.mono hc hc'

/-- A solution of constraints over reachable variables puts in reachable ones only. -/
theorem Env.Reaches.of_mem_image {Γ : Env Empty} {c c' : Int} {s : Subst Empty}
    {V : Set String} {a b : String} (hs : s.ResolvedIn V) (hV : ∀ a ∈ V, Γ.Reaches c c' a)
    (ha : Γ.Reaches c c' a) (hb : b ∈ (s.image a).freeVars) : Γ.Reaches c c' b := by
  rcases hs.mem_image hb with ⟨rfl, -⟩ | ⟨hbV, -⟩
  · exact ha
  · exact hV b hbV

/-- A variable occurs in the type or in the constraints of a result. -/
def Typed.Mentions (r : Typed Empty) (a : String) : Prop :=
  a ∈ r.type.freeVars ∨ Constraint.MentionedIn r.constraints a

/-- Two results, taken together. -/
def Typed.both (p q : Typed Empty) : Typed Empty where
  type := .pair p.type q.type
  constraints := p.constraints ++ q.constraints

/-- What two results mention together. -/
theorem Typed.mentions_both {p q : Typed Empty} {a : String} :
    (p.both q).Mentions a ↔ p.Mentions a ∨ q.Mentions a := by
  simp only [Typed.Mentions, Typed.both, Ty.mem_freeVars_pair, Constraint.mentionedIn_append]
  tauto

namespace Expr

/-- A run moves the counter forward and mentions only variables of its environment and
variables that it made. -/
structure Tracked (Γ : Env Empty) (c : Int) (r : Typed Empty) (c' : Int) : Prop where
  le : c ≤ c'
  reaches : ∀ {a}, r.Mentions a → Γ.Reaches c c' a

/-- Runs in one environment, one after the other. -/
theorem Tracked.both {Γ : Env Empty} {c c₁ c₂ : Int} {p q : Typed Empty}
    (hp : Tracked Γ c p c₁) (hq : Tracked Γ c₁ q c₂) : Tracked Γ c (p.both q) c₂ where
  le := le_trans hp.le hq.le
  reaches ha := (Typed.mentions_both.1 ha).elim
    (fun ha => (hp.reaches ha).mono le_rfl hq.le) fun ha => (hq.reaches ha).mono hp.le le_rfl

/-- A run that adds only variables of its own to what a part of it mentions. -/
theorem Tracked.extend {Γ : Env Empty} {c c₁ c' : Int} {p r : Typed Empty}
    (hp : Tracked Γ c p c₁) (hle : c₁ ≤ c')
    (hr : ∀ {a}, r.Mentions a → p.Mentions a ∨ Minted c c' a) : Tracked Γ c r c' where
  le := le_trans hp.le hle
  reaches ha := (hr ha).elim (fun ha => (hp.reaches ha).mono le_rfl hle) Or.inr

/-- Inference on list elements mentions the variables of the element type besides. -/
theorem InfersAll.mentions {Γ : Env Empty} {element : MonoTy} {es : List Expr}
    (ih : ∀ e ∈ es, ∀ {c r c'}, Infers Γ c e r c' → Tracked Γ c r c')
    {c c' : Int} {C : List (Constraint Empty)} (h : InfersAll Γ c element es C c') :
    c ≤ c' ∧ ∀ {a}, Constraint.MentionedIn C a → a ∈ element.freeVars ∨ Γ.Reaches c c' a := by
  induction es generalizing c C with
  | nil =>
      obtain ⟨rfl, rfl⟩ := infersAll_nil.1 h
      exact ⟨le_refl _, fun ha => absurd ha Constraint.mentionedIn_nil⟩
  | cons e es ihes =>
      obtain ⟨t, c₁, D, he, hes, rfl⟩ := infersAll_cons.1 h
      obtain ⟨hle, hreach⟩ := ih e List.mem_cons_self he
      obtain ⟨hle', hreach'⟩ := ihes (fun e he => ih e (List.mem_cons_of_mem _ he)) hes
      refine ⟨by omega, fun {a} ha => ?_⟩
      have hhead : t.Mentions a → Γ.Reaches c c' a := fun h => (hreach h).mono le_rfl hle'
      have htail : Constraint.MentionedIn D a → a ∈ element.freeVars ∨ Γ.Reaches c c' a :=
        fun h => (hreach' h).imp_right fun h => h.mono hle le_rfl
      simp only [Constraint.mentionedIn_append, Constraint.mentionedIn_cons,
        Constraint.Mentions] at ha
      rw [Typed.Mentions] at hhead
      tauto

/-- Where the type variables of a run come from. -/
theorem Infers.mentions {Γ : Env Empty} {c c' : Int} {e : Expr} {r : Typed Empty}
    (h : Infers Γ c e r c') : Tracked Γ c r c' := by
  induction e generalizing Γ c c' r with
  | int n =>
      obtain ⟨rfl, rfl⟩ := infers_int.1 h
      exact ⟨le_rfl, by simp [Typed.Mentions, Ty.int]⟩
  | bool b =>
      obtain ⟨rfl, rfl⟩ := infers_bool.1 h
      exact ⟨le_rfl, by simp [Typed.Mentions, Ty.bool]⟩
  | var x =>
      obtain ⟨σ, t, hx, hrun, rfl⟩ := infers_var.1 h
      have hinst := Scheme.Instantiates.of_run hrun
      refine ⟨hinst.le, ?_⟩
      rintro a (ha | ha)
      · exact (hinst.mentions a ha).imp_left (Env.mem_freeVars_of_get? hx)
      · exact absurd ha Constraint.mentionedIn_nil
  | prim p =>
      obtain ⟨t, hrun, rfl⟩ := infers_prim.1 h
      have hinst := Scheme.Instantiates.of_run hrun
      refine ⟨hinst.le, ?_⟩
      rintro a (ha | ha)
      · exact (hinst.mentions a ha).imp_left fun ha => absurd ha (p.signature_closed a)
      · exact absurd ha Constraint.mentionedIn_nil
  | hole => exact absurd h infers_hole
  | lam x body ih =>
      obtain ⟨b, hb, rfl⟩ := infers_lam.1 h
      obtain ⟨hle, hreach⟩ := ih hb
      have hnew : Γ.Reaches c c' (typeVarName (c + 1)) :=
        Or.inr ((minted_succ c).mono le_rfl hle)
      have hbody : ∀ {a}, b.Mentions a → Γ.Reaches c c' a := by
        intro a ha
        rcases hreach ha with hfree | hminted
        · rcases Env.mem_freeVars_insert hfree with hx | hold
          · simp only [Scheme.mem_freeVars_mono, Ty.mem_freeVars_var] at hx
            exact hx ▸ hnew
          · exact Or.inl hold
        · exact Or.inr (hminted.mono (by omega) le_rfl)
      refine ⟨by omega, fun {a} ha => ?_⟩
      simp only [Typed.Mentions, Ty.mem_freeVars_fn, Ty.mem_freeVars_var] at ha
      rcases ha with (rfl | ha) | ha
      · exact hnew
      · exact hbody (Or.inl ha)
      · exact hbody (Or.inr ha)
  | app f a ihf iha =>
      obtain ⟨rf, c₁, ra, c₂, hf, ha, rfl, rfl⟩ := infers_app.1 h
      have hparts := (ihf hf).both (iha ha)
      refine hparts.extend (by omega) fun {b} hb => ?_
      have hnew : Minted c (c₂ + 1) (typeVarName (c₂ + 1)) :=
        (minted_succ c₂).mono hparts.le le_rfl
      rw [Typed.mentions_both]
      simp only [Typed.Mentions, Constraint.mentionedIn_append, Constraint.mentionedIn_cons,
        Constraint.Mentions, Ty.mem_freeVars_fn, Ty.mem_freeVars_var,
        Constraint.mentionedIn_nil] at hb ⊢
      grind
  | letIn x value body ihv ihb =>
      obtain ⟨v, c₁, s, b, hv, hs, hb, rfl⟩ := infers_letIn.1 h
      obtain ⟨hlev, hreachv⟩ := ihv hv
      obtain ⟨hleb, hreachb⟩ := ihb hb
      have hvalue : ∀ {a}, v.Mentions a → Γ.Reaches c c' a :=
        fun h => (hreachv h).mono le_rfl hleb
      have hbody : ∀ {a}, b.Mentions a → Γ.Reaches c c' a := by
        intro a ha
        rcases hreachb ha with hfree | hminted
        · obtain ⟨d, hd, had⟩ :=
            Env.exists_of_mem_freeVars_apply (Env.mem_freeVars_bindSolved hfree)
          exact Env.Reaches.of_mem_image (Constraint.mostGeneral_of_solve hs).resolved
            (fun k hk => hvalue (Or.inr hk)) (Or.inl hd) had
        · exact Or.inr (hminted.mono hlev le_rfl)
      refine ⟨by omega, fun {a} ha => ?_⟩
      rw [Typed.Mentions, Constraint.mentionedIn_append] at ha
      rcases ha with ha | ha | ha
      · exact hbody (Or.inl ha)
      · exact hvalue (Or.inr ha)
      · exact hbody (Or.inr ha)
  | ifThenElse test onTrue onFalse iht iha ihb =>
      obtain ⟨t, c₁, a, c₂, b, ht, ha, hb, rfl⟩ := infers_ifThenElse.1 h
      refine (((iht ht).both (iha ha)).both (ihb hb)).extend le_rfl fun {d} hd => Or.inl ?_
      rw [Typed.mentions_both, Typed.mentions_both]
      simp only [Typed.Mentions, Constraint.mentionedIn_append, Constraint.mentionedIn_cons,
        Constraint.Mentions, Ty.bool, Ty.mem_freeVars_con,
        Constraint.mentionedIn_nil] at hd ⊢
      tauto
  | fix body ih =>
      obtain ⟨b, c₁, hb, rfl, rfl⟩ := infers_fix.1 h
      refine (ih hb).extend (by omega) fun {a} ha => ?_
      have hnew : Minted c (c₁ + 1) (typeVarName (c₁ + 1)) :=
        (minted_succ c₁).mono (ih hb).le le_rfl
      simp only [Typed.Mentions, Constraint.mentionedIn_append, Constraint.mentionedIn_cons,
        Constraint.Mentions, Ty.mem_freeVars_fn, Ty.mem_freeVars_var,
        Constraint.mentionedIn_nil] at ha ⊢
      grind
  | list es ih =>
      obtain ⟨C, hC, rfl⟩ := infers_list.1 h
      obtain ⟨hle, hreach⟩ := hC.mentions fun e he => ih e he
      refine ⟨by omega, fun {a} ha => ?_⟩
      have hlist : a = typeVarName (c + 1) → Γ.Reaches c c' a :=
        fun h => Or.inr (h ▸ (minted_succ c).mono le_rfl (by omega))
      have helement : a = typeVarName (c + 1 + 1) → Γ.Reaches c c' a :=
        fun h => Or.inr (h ▸ (minted_succ (c + 1)).mono (by omega) hle)
      have helements : Constraint.MentionedIn C a →
          a = typeVarName (c + 1 + 1) ∨ Γ.Reaches c c' a :=
        fun h => (hreach h).imp Ty.mem_freeVars_var.1 fun h => h.mono (by omega) le_rfl
      simp only [Typed.Mentions, Constraint.mentionedIn_append, Constraint.mentionedIn_cons,
        Constraint.Mentions, Ty.mem_freeVars_list, Ty.mem_freeVars_var,
        Constraint.mentionedIn_nil] at ha
      grind

end Expr

/-! ## Environments apart from what is made later -/

namespace Env

/-- An environment is apart from the variables to be made after a counter: none is free or
quantified in it, and no variable is both free and quantified.  Closed schemes may quantify
any variables. -/
structure Apart (Γ : Env Empty) (c : Int) : Prop where
  free : ∀ {a}, a ∈ Γ.freeVars → ∀ c', ¬ Minted c c' a
  bound : ∀ {x σ}, Γ.get? x = some σ →
    σ.Closed ∨ ∀ a ∈ σ.bound, ¬ a ∈ Γ.freeVars ∧ ∀ c', ¬ Minted c c' a

/-- An environment is apart from higher numbers as well. -/
theorem Apart.mono {Γ : Env Empty} {c d : Int} (h : Γ.Apart c) (hcd : c ≤ d) : Γ.Apart d where
  free ha c' hnew := h.free ha c' (hnew.mono hcd le_rfl)
  bound hx := (h.bound hx).imp_right fun hbound a ha =>
    ⟨(hbound a ha).1, fun c' hnew => (hbound a ha).2 c' (hnew.mono hcd le_rfl)⟩

/-- A closed environment is apart from all numbers. -/
theorem Closed.apart {Γ : Env Empty} (h : Γ.Closed) (c : Int) : Γ.Apart c where
  free ha := absurd ha (h.not_mem_freeVars _)
  bound hx := Or.inl (h _ _ hx)

/-- A parameter takes a fresh variable. -/
theorem Apart.insertVar {Γ : Env Empty} {c : Int} (h : Γ.Apart c) (x : String) :
    Env.Apart (Γ.insert x (.mono (.var (typeVarName (c + 1))))) (c + 1) := by
  have hreach : ∀ {a}, a ∈ Env.freeVars (Γ.insert x (.mono (.var (typeVarName (c + 1))))) →
      Γ.Reaches c (c + 1) a := by
    intro a ha
    rcases mem_freeVars_insert ha with hx | hold
    · simp only [Scheme.mem_freeVars_mono, Ty.mem_freeVars_var] at hx
      exact Or.inr (hx ▸ minted_succ c)
    · exact Or.inl hold
  constructor
  · intro a ha c' hnew
    rcases hreach ha with hold | hminted
    · exact h.free hold c' (hnew.mono (by omega) le_rfl)
    · exact hminted.not_minted le_rfl hnew
  · intro y σ hy
    rw [Bindings.get?_insert] at hy
    split_ifs at hy with heq
    · cases hy
      exact Or.inr fun a ha => absurd ha List.not_mem_nil
    · refine (h.bound hy).imp_right fun hbound a ha => ?_
      obtain ⟨hfree, hnew⟩ := hbound a ha
      refine ⟨fun ha' => ?_, fun c' hminted => hnew c' (hminted.mono (by omega) le_rfl)⟩
      rcases hreach ha' with hold | hminted
      · exact hfree hold
      · exact hnew _ hminted

end Env

/-! ## Local definitions -/

namespace Env.Apart

variable {Γ : Env Empty} {c c₁ : Int} {v : Typed Empty} {s : Subst Empty}

/-- A solution of a run's constraints keeps reachable variables reachable. -/
theorem reaches_image (hv : Expr.Tracked Γ c v c₁)
    (hs : Constraint.solve v.constraints = .ok s) {a b : String} (ha : Γ.Reaches c c₁ a)
    (hb : b ∈ (s.image a).freeVars) : Γ.Reaches c c₁ b :=
  Reaches.of_mem_image (Constraint.mostGeneral_of_solve hs).resolved
    (fun _ hk => hv.reaches (Or.inr hk)) ha hb

/-- The solution for a local definition captures nothing in the environment. -/
theorem captureFree (hΓ : Γ.Apart c) (hv : Expr.Tracked Γ c v c₁)
    (hs : Constraint.solve v.constraints = .ok s) {x : String} {σ : Scheme Empty}
    (hx : Γ.get? x = some σ) : σ.CaptureFree s := by
  rcases hΓ.bound hx with hclosed | hbound
  · exact hclosed.captureFree s
  · intro a ha b hb hmem
    rcases reaches_image hv hs (Or.inl (mem_freeVars_of_get? hx ha)) hb with hfree | hminted
    · exact (hbound b hmem).1 hfree
    · exact (hbound b hmem).2 _ hminted

/-- An assignment that does the work of the solution sees the same uses of the names in
scope before and after. -/
theorem uses_apply (hΓ : Γ.Apart c) (hv : Expr.Tracked Γ c v c₁)
    (hs : Constraint.solve v.constraints = .ok s) {θ : Assignment}
    (hθ : ∀ a ∈ Γ.freeVars, (s.image a).inst θ = θ a) :
    (Γ.apply s).uses θ = Γ.uses θ := by
  funext x
  cases hx : Γ.get? x with
  | none =>
      have hx' : (Γ.apply s).get? x = none := by rw [get?_apply, hx, Option.map_none]
      simp [uses, hx, hx']
  | some σ =>
      have hx' : (Γ.apply s).get? x = some (σ.apply s) := by
        rw [get?_apply, hx, Option.map_some]
      rw [uses_of_get? θ hx, uses_of_get? θ hx']
      exact Scheme.instances_apply (hΓ.captureFree hv hs hx)
        fun a ha => hθ a (mem_freeVars_of_get? hx ha)

/-- What a solution puts for a variable of the environment is free in it afterwards. -/
theorem mem_freeVars_apply (hΓ : Γ.Apart c) (hv : Expr.Tracked Γ c v c₁)
    (hs : Constraint.solve v.constraints = .ok s) {a b : String} (ha : a ∈ Γ.freeVars)
    (hb : b ∈ (s.image a).freeVars) : b ∈ (Γ.apply s).freeVars := by
  obtain ⟨x, σ, hx, haσ⟩ := mem_freeVars.1 ha
  have hx' : (Γ.apply s).get? x = some (σ.apply s) := by
    rw [get?_apply, hx, Option.map_some]
  exact mem_freeVars_of_get? hx' ((hΓ.captureFree hv hs hx).mem_freeVars_apply haσ hb)

/-- A local definition keeps the environment apart. -/
theorem bindSolved (hΓ : Γ.Apart c) (hv : Expr.Tracked Γ c v c₁)
    (hs : Constraint.solve v.constraints = .ok s) (x : String) :
    (Γ.bindSolved s x v.type).Apart c₁ := by
  have hreach : ∀ {a}, a ∈ (Γ.bindSolved s x v.type).freeVars → Γ.Reaches c c₁ a := by
    intro a ha
    obtain ⟨d, hd, had⟩ := exists_of_mem_freeVars_apply (mem_freeVars_bindSolved ha)
    exact reaches_image hv hs (Or.inl hd) had
  have hlater : ∀ {a}, Γ.Reaches c c₁ a → ∀ c', ¬ Minted c₁ c' a := by
    rintro a (hold | hminted) c' hnew
    · exact hΓ.free hold c' (hnew.mono hv.le le_rfl)
    · exact hminted.not_minted le_rfl hnew
  refine ⟨fun ha => hlater (hreach ha), ?_⟩
  intro y τ hy
  rw [Env.bindSolved, Bindings.get?_insert] at hy
  split_ifs at hy with heq
  · cases hy
    refine Or.inr fun a ha => ?_
    obtain ⟨hbody, hfree⟩ := Ty.mem_bound_generalize.1 ha
    rw [Ty.apply_eq_inst, Ty.mem_freeVars_inst] at hbody
    obtain ⟨d, hd, had⟩ := hbody
    exact ⟨fun ha' => hfree (mem_freeVars_bindSolved ha'),
      hlater (reaches_image hv hs (hv.reaches (Or.inl hd)) had)⟩
  · rw [get?_apply, Option.map_eq_some_iff] at hy
    obtain ⟨σ, hy, rfl⟩ := hy
    refine (hΓ.bound hy).imp (fun hclosed => hclosed.apply s) fun hbound a ha => ?_
    obtain ⟨hfree, hnew⟩ := hbound a ha
    refine ⟨fun ha' => ?_, fun c' hminted => hnew c' (hminted.mono hv.le le_rfl)⟩
    rcases hreach ha' with hold | hminted
    · exact hfree hold
    · exact hnew _ hminted

end Env.Apart

/-- Two solutions that agree on an environment agree on it after solving. -/
theorem Env.eq_of_mem_freeVars_apply {Γ : Env Empty} {v : Typed Empty} {s : Subst Empty}
    (hs : Constraint.solve v.constraints = .ok s) {θ ρ : Assignment}
    (hθ : Solves θ v.constraints) (hρ : Solves ρ v.constraints)
    (hagree : ∀ a ∈ Γ.freeVars, ρ a = θ a) {a : String} (ha : a ∈ (Γ.apply s).freeVars) :
    ρ a = θ a := by
  have hgeneral := Constraint.mostGeneral_of_solve hs
  obtain ⟨d, hd, had⟩ := Env.exists_of_mem_freeVars_apply ha
  have himage : (s.image d).inst ρ = (s.image d).inst θ := by
    rw [hgeneral.absorbed hρ d, hgeneral.absorbed hθ d, hagree d hd]
  exact Ty.inst_eq_inst_iff.1 himage a had

end LetPoly
