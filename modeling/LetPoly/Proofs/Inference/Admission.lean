import LetPoly.Proofs.Inference.Variables

/-!
# What a run keeps to itself

A run of inference may be a part of a larger run.  The rest of the larger run sees the
variables that the part made only through the part's type, so assignments may be changed at
the other variables without anyone noticing outside.

A set of assignments that is closed under such changes is fit for the run, {lit}`Admits`.
Facts that hold of every solution of the larger run can so be used inside its parts, also
where a local definition is typed at an assignment of its own.

Main results:

- Theorem {lit}`Admits.part`: a set that is fit for a run is fit for its parts.
- Theorem {lit}`Env.Apart.inst_overlay_image`: the variables that a local definition
  quantifies may be changed.
- Theorem {lit}`Admits.changeValue`: a set that is fit for a local definition admits changes
  of its value that the body does not see.
-/

namespace LetPoly

/-- A variable is visible outside a run that did not make it or has it in its type. -/
def Typed.Shows (r : Typed Empty) (c c' : Int) (a : String) : Prop :=
  ¬ Minted c c' a ∨ a ∈ r.type.freeVars

/-- A set of assignments is fit for a run when it has only solutions of the run's constraints
and does not restrict them beyond what is visible outside the run. -/
structure Admits (K : Assignment → Prop) (c : Int) (r : Typed Empty) (c' : Int) : Prop where
  solves : ∀ {θ}, K θ → Solves θ r.constraints
  closed : ∀ {θ ρ : Assignment}, K θ → Solves ρ r.constraints →
    (∀ a, r.Shows c c' a → ρ a = θ a) → K ρ

/-- The solutions of a run's constraints are fit for the run. -/
theorem admits_solves (c : Int) (r : Typed Empty) (c' : Int) :
    Admits (fun θ => Solves θ r.constraints) c r c' where
  solves h := h
  closed _ h _ := h

/-- A set that is fit for a run is fit for a part of it, when the rest of the run sees the
part from outside only. -/
theorem Admits.part {K : Assignment → Prop} {c c' d d' : Int} {r p : Typed Empty}
    (h : Admits K c r c') (hd : c ≤ d) (hd' : d' ≤ c') (rest : List (Constraint Empty))
    (hsplit : ∀ k, k ∈ r.constraints ↔ k ∈ p.constraints ∨ k ∈ rest)
    (hrest : ∀ a, Typed.Mentions ⟨r.type, rest⟩ a → p.Shows d d' a) : Admits K d p d' := by
  constructor
  · intro θ hθ k hk
    exact h.solves hθ k ((hsplit k).2 (Or.inl hk))
  · intro θ ρ hθ hρ hagree
    have hsolves : Solves ρ rest := by
      have hrestθ : Solves θ rest := fun k hk => h.solves hθ k ((hsplit k).2 (Or.inr hk))
      exact hrestθ.congr fun a ha => hagree a (hrest a (Or.inr ha))
    refine h.closed hθ ?_ ?_
    · intro k hk
      rcases (hsplit k).1 hk with hmem | hmem
      · exact hρ k hmem
      · exact hsolves k hmem
    · rintro a (hnot | hmem)
      · exact hagree a (Or.inl fun hnew => hnot (hnew.mono hd hd'))
      · exact hagree a (hrest a (Or.inl hmem))

/-! ## Consecutive runs -/

/-- What one run reaches, another run that made its variables before or after did not
make. -/
theorem Env.Apart.not_minted {Γ : Env Empty} {c d d' i i' : Int} {a : String}
    (hΓ : Γ.Apart c) (h : Γ.Reaches d d' a) (hi : c ≤ i) (hapart : d' ≤ i ∨ i' ≤ d) :
    ¬ Minted i i' a := by
  intro hminted
  rcases h with hfree | hnew
  · exact hΓ.free hfree i' (hminted.mono hi le_rfl)
  · rcases hapart with hbefore | hafter
    · exact hnew.not_minted hbefore hminted
    · exact hminted.not_minted hafter hnew

/-- Two runs, one after the other, keep to themselves what each keeps to itself. -/
theorem Admits.of_both {K : Assignment → Prop} {c c₁ c₂ : Int} {p q : Typed Empty}
    (h : Admits K c (p.both q) c₂) (hle : c ≤ c₁) (hle' : c₁ ≤ c₂)
    (hp : ∀ {a}, p.Mentions a → ¬ Minted c₁ c₂ a)
    (hq : ∀ {a}, q.Mentions a → ¬ Minted c c₁ a) : Admits K c p c₁ ∧ Admits K c₁ q c₂ := by
  constructor
  · refine h.part le_rfl hle' q.constraints (by simp [Typed.both]) ?_
    rintro a (ha | ha)
    · rcases Ty.mem_freeVars_pair.1 ha with ha | ha
      · exact Or.inr ha
      · exact Or.inl (hq (Or.inl ha))
    · exact Or.inl (hq (Or.inr ha))
  · refine h.part hle le_rfl p.constraints (by simp [Typed.both, or_comm]) ?_
    rintro a (ha | ha)
    · rcases Ty.mem_freeVars_pair.1 ha with ha | ha
      · exact Or.inl (hp (Or.inl ha))
      · exact Or.inr ha
    · exact Or.inl (hp (Or.inr ha))

/-- Consecutive runs in one environment see each other from outside only. -/
theorem Expr.Tracked.admits {K : Assignment → Prop} {Γ : Env Empty} {c c₁ c₂ : Int}
    {p q : Typed Empty} (hp : Expr.Tracked Γ c p c₁) (hq : Expr.Tracked Γ c₁ q c₂)
    (hΓ : Γ.Apart c) (h : Admits K c (p.both q) c₂) : Admits K c p c₁ ∧ Admits K c₁ q c₂ :=
  h.of_both hp.le hq.le (fun ha => hΓ.not_minted (hp.reaches ha) hp.le (Or.inl le_rfl))
    fun ha => hΓ.not_minted (hq.reaches ha) le_rfl (Or.inr le_rfl)

/-! ## Parts of expressions -/

namespace Admits

variable {K : Assignment → Prop} {Γ : Env Empty} {c c₁ c₂ c' : Int}

/-- The body of a function. -/
theorem lam {b : Typed Empty}
    (h : Admits K c ⟨.fn (.var (typeVarName (c + 1))) b.type, b.constraints⟩ c') :
    Admits K (c + 1) b c' := by
  refine h.part (by omega) le_rfl [] (by simp) fun a ha => ?_
  have hparameter : ¬ Minted (c + 1) c' (typeVarName (c + 1)) :=
    (minted_succ c).not_minted le_rfl
  simp only [Typed.Mentions, Ty.mem_freeVars_fn, Ty.mem_freeVars_var,
    Constraint.mentionedIn_nil] at ha
  grind [Typed.Shows]

/-- The function and the argument of an application. -/
theorem app {f a : Typed Empty}
    (h : Admits K c ⟨.var (typeVarName (c₂ + 1)), f.constraints ++ a.constraints ++
      [⟨f.type, .fn a.type (.var (typeVarName (c₂ + 1)))⟩]⟩ (c₂ + 1))
    (hf : Expr.Tracked Γ c f c₁) (ha : Expr.Tracked Γ c₁ a c₂) (hΓ : Γ.Apart c) :
    Admits K c f c₁ ∧ Admits K c₁ a c₂ := by
  refine hf.admits ha hΓ ?_
  refine h.part le_rfl (by omega) [⟨f.type, .fn a.type (.var (typeVarName (c₂ + 1)))⟩]
    (by simp [Typed.both, or_assoc]) fun b hb => ?_
  have hnew : ¬ Minted c c₂ (typeVarName (c₂ + 1)) :=
    fun hminted => hminted.not_minted le_rfl (minted_succ c₂)
  simp only [Typed.Mentions, Constraint.mentionedIn_cons, Constraint.Mentions,
    Ty.mem_freeVars_fn, Ty.mem_freeVars_var, Constraint.mentionedIn_nil] at hb
  rw [Typed.Shows, Typed.both, Ty.mem_freeVars_pair]
  grind

/-- The test and the branches of a choice. -/
theorem ifThenElse {t a b : Typed Empty}
    (h : Admits K c ⟨a.type, t.constraints ++ a.constraints ++ b.constraints ++
      [⟨t.type, .bool⟩, ⟨a.type, b.type⟩]⟩ c')
    (ht : Expr.Tracked Γ c t c₁) (ha : Expr.Tracked Γ c₁ a c₂) (hb : Expr.Tracked Γ c₂ b c')
    (hΓ : Γ.Apart c) : Admits K c t c₁ ∧ Admits K c₁ a c₂ ∧ Admits K c₂ b c' := by
  have hboth : Admits K c ((t.both a).both b) c' := by
    refine h.part le_rfl le_rfl [⟨t.type, .bool⟩, ⟨a.type, b.type⟩]
      (by simp [Typed.both, or_assoc]) fun d hd => Or.inr ?_
    simp only [Typed.Mentions, Constraint.mentionedIn_cons, Constraint.Mentions, Ty.bool,
      Ty.mem_freeVars_con, Constraint.mentionedIn_nil] at hd
    simp only [Typed.both, Ty.mem_freeVars_pair]
    tauto
  obtain ⟨hleft, hfalse⟩ := (ht.both ha).admits hb hΓ hboth
  obtain ⟨htest, htrue⟩ := ht.admits ha hΓ hleft
  exact ⟨htest, htrue, hfalse⟩

/-- The body of a fixed point. -/
theorem fix {b : Typed Empty}
    (h : Admits K c ⟨.var (typeVarName (c₁ + 1)), b.constraints ++ [⟨b.type,
      .fn (.var (typeVarName (c₁ + 1))) (.var (typeVarName (c₁ + 1)))⟩]⟩ (c₁ + 1)) :
    Admits K c b c₁ := by
  refine h.part le_rfl (by omega) [⟨b.type, .fn (.var (typeVarName (c₁ + 1)))
    (.var (typeVarName (c₁ + 1)))⟩] (by simp) fun a ha => ?_
  have hnew : ¬ Minted c c₁ (typeVarName (c₁ + 1)) :=
    fun hminted => hminted.not_minted le_rfl (minted_succ c₁)
  simp only [Typed.Mentions, Constraint.mentionedIn_cons, Constraint.Mentions,
    Ty.mem_freeVars_fn, Ty.mem_freeVars_var, Constraint.mentionedIn_nil] at ha
  grind [Typed.Shows]

/-- The elements of a list. -/
theorem list {C : List (Constraint Empty)}
    (h : Admits K c ⟨.var (typeVarName (c + 1)), C ++ [⟨.var (typeVarName (c + 1)),
      .list (.var (typeVarName (c + 1 + 1)))⟩]⟩ c') :
    Admits K (c + 1 + 1) ⟨.var (typeVarName (c + 1 + 1)), C⟩ c' := by
  refine h.part (by omega) le_rfl [⟨.var (typeVarName (c + 1)),
    .list (.var (typeVarName (c + 1 + 1)))⟩] (by simp) fun a ha => ?_
  have hlist : ¬ Minted (c + 1 + 1) c' (typeVarName (c + 1)) :=
    (minted_succ c).not_minted (by omega)
  simp only [Typed.Mentions, Constraint.mentionedIn_cons, Constraint.Mentions,
    Ty.mem_freeVars_list, Ty.mem_freeVars_var, Constraint.mentionedIn_nil] at ha
  rw [Typed.Shows, Ty.mem_freeVars_var]
  grind

/-- The first element of a list and the others. -/
theorem elements {t : Typed Empty} {element : MonoTy} {D : List (Constraint Empty)}
    (h : Admits K c ⟨element, t.constraints ++ ⟨t.type, element⟩ :: D⟩ c')
    (hle : c ≤ c₁) (hle' : c₁ ≤ c') (ht : ∀ {a}, t.Mentions a → ¬ Minted c₁ c' a)
    (hD : ∀ {a}, Typed.Mentions ⟨element, D⟩ a → ¬ Minted c c₁ a) :
    Admits K c t c₁ ∧ Admits K c₁ ⟨element, D⟩ c' := by
  refine Admits.of_both ?_ hle hle' ht hD
  refine h.part le_rfl le_rfl [⟨t.type, element⟩] (by simp [Typed.both]; grind) fun a ha => ?_
  right
  simp only [Typed.Mentions, Constraint.mentionedIn_cons, Constraint.Mentions,
    Constraint.mentionedIn_nil] at ha
  rw [Typed.both, Ty.mem_freeVars_pair]
  tauto

end Admits

/-! ## Local definitions -/

section LocalDefinition

variable {K : Assignment → Prop} {Γ : Env Empty} {c c₁ c' : Int} {v b : Typed Empty}
  {s : Subst Empty} {x : String}

/-- Changing the variables that a local definition quantifies changes nothing that is
visible outside its value. -/
theorem Env.Apart.inst_overlay_image (hΓ : Γ.Apart c) (hv : Expr.Tracked Γ c v c₁)
    (hs : Constraint.solve v.constraints = .ok s) {θ : Assignment}
    (hθ : Solves θ v.constraints) (η : Assignment) {a : String}
    (ha : ¬ Minted c c₁ a ∨ a ∈ (Γ.apply s).freeVars) :
    (s.image a).inst
      (Assignment.overlay ((v.type.apply s).generalize (Γ.apply s)).bound η θ) = θ a := by
  have hgeneral := Constraint.mostGeneral_of_solve hs
  have hout : ∀ b ∈ (s.image a).freeVars,
      b ∉ ((v.type.apply s).generalize (Γ.apply s)).bound := by
    intro b hb hmem
    obtain ⟨hbtype, hbfree⟩ := Ty.mem_bound_generalize.1 hmem
    rcases ha with hold | hfree
    · by_cases haΓ : a ∈ Γ.freeVars
      · exact hbfree (hΓ.mem_freeVars_apply hv hs haΓ hb)
      · -- the variable has nothing to do with the value
        have hunreached : ¬ Γ.Reaches c c₁ a := not_or_intro haΓ hold
        rcases hgeneral.resolved.mem_image hb with ⟨rfl, -⟩ | ⟨hbV, -⟩
        · rw [Ty.apply_eq_inst, Ty.mem_freeVars_inst] at hbtype
          obtain ⟨d, hd, hbd⟩ := hbtype
          exact hunreached (Env.Apart.reaches_image hv hs (hv.reaches (Or.inl hd)) hbd)
        · cases hget : s.get? a with
          | none =>
              rw [Subst.image_of_get?_eq_none hget, Ty.mem_freeVars_var] at hb
              exact hunreached (hv.reaches (Or.inr (hb ▸ hbV)))
          | some t =>
              exact hunreached (hv.reaches (Or.inr (hgeneral.resolved.bound_mem hget)))
    · obtain ⟨d, -, had⟩ := Env.exists_of_mem_freeVars_apply hfree
      have hget := hgeneral.resolved.get?_of_mem_image had
      rw [Subst.image_of_get?_eq_none hget, Ty.mem_freeVars_var] at hb
      exact hbfree (hb ▸ hfree)
  rw [← hgeneral.absorbed hθ a]
  exact Ty.inst_congr fun b hb => Assignment.overlay_of_not_mem (hout b hb)

/-- A set that is fit for a local definition admits changes of the value that the body does
not see. -/
theorem Admits.changeValue (hK : Admits K c ⟨b.type, v.constraints ++ b.constraints⟩ c')
    (hb : Expr.Tracked (Γ.bindSolved s x v.type) c₁ b c') {θ ρ : Assignment} (hθ : K θ)
    (hρ : Solves ρ v.constraints)
    (hscope : ∀ {a}, ¬ Minted c c₁ a ∨ a ∈ (Γ.apply s).freeVars → ρ a = θ a) : K ρ := by
  have hbody : ∀ {a}, b.Mentions a → ρ a = θ a := by
    intro a ha
    rcases hb.reaches ha with hfree | hminted
    · exact hscope (Or.inr (Env.mem_freeVars_bindSolved hfree))
    · exact hscope (Or.inl fun hnew => hnew.not_minted le_rfl hminted)
  refine hK.closed hθ (solves_append.2 ⟨hρ, ?_⟩) ?_
  · exact (solves_append.1 (hK.solves hθ)).2.congr fun a ha => hbody (Or.inr ha)
  · rintro a (hnot | hmem)
    · exact hscope (Or.inl fun hnew => hnot (hnew.mono le_rfl hb.le))
    · exact hbody (Or.inl hmem)

/-- The value of a local definition. -/
theorem Admits.value (hK : Admits K c ⟨b.type, v.constraints ++ b.constraints⟩ c')
    (hΓ : Γ.Apart c) (hs : Constraint.solve v.constraints = .ok s)
    (hb : Expr.Tracked (Γ.bindSolved s x v.type) c₁ b c') : Admits K c v c₁ := by
  have hsolves : ∀ {θ}, K θ → Solves θ v.constraints :=
    fun hθ => (solves_append.1 (hK.solves hθ)).1
  refine ⟨hsolves, fun {θ ρ} hθ hρ hagree => hK.changeValue hb hθ hρ ?_⟩
  rintro a (hnot | hfree)
  · exact hagree a (Or.inl hnot)
  · exact Env.eq_of_mem_freeVars_apply hs (hsolves hθ) hρ
      (fun d hd => hagree d (Or.inl (hΓ.free hd c₁))) hfree

/-- The body of a local definition. -/
theorem Admits.body (hK : Admits K c ⟨b.type, v.constraints ++ b.constraints⟩ c')
    (hΓ : Γ.Apart c) (hv : Expr.Tracked Γ c v c₁) : Admits K c₁ b c' := by
  refine hK.part hv.le le_rfl v.constraints (by simp [or_comm]) ?_
  rintro a (ha | ha)
  · exact Or.inr ha
  · exact Or.inl (hΓ.not_minted (hv.reaches (Or.inr ha)) hv.le (Or.inl le_rfl))

end LocalDefinition

end LetPoly
