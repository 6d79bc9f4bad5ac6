import LetPoly.Proofs.Assignment
import LetPoly.Unify
import Mathlib.Data.Finset.Card

/-!
# Most general solutions

An assignment solves constraints when it makes the two sides of each equal.  Unification
answers with a substitution through which every solution factors, or fails when there is
no solution.  Both parts are kept in one predicate on the outcome, {lit}`Settles`, so that
each way of putting unifiers together is treated once.

Main results:

- Theorem {lit}`Settles.andThen`: solving some constraints, and then others under the first
  solution, solves them all.
- Theorem {lit}`Ty.unify_settles`: unification of two types settles their equality.
- Theorem {lit}`Constraint.solve_settles`: the solver settles every list of constraints.
-/

namespace LetPoly

/-- An assignment solves constraints when it makes the two sides of each equal. -/
def Solves (θ : Assignment) (constraints : List (Constraint Empty)) : Prop :=
  ∀ c ∈ constraints, c.left.inst θ = c.right.inst θ

@[simp] theorem solves_nil (θ : Assignment) : Solves θ [] := by
  simp [Solves]

/-- A list of constraints is solved by solving the first one and the others. -/
@[simp] theorem solves_cons {θ : Assignment} {c : Constraint Empty}
    {rest : List (Constraint Empty)} :
    Solves θ (c :: rest) ↔ c.left.inst θ = c.right.inst θ ∧ Solves θ rest := by
  simp [Solves]

/-- Lists of constraints are solved together if each of them is. -/
@[simp] theorem solves_append {θ : Assignment} {C D : List (Constraint Empty)} :
    Solves θ (C ++ D) ↔ Solves θ C ∧ Solves θ D := by
  simp only [Solves, List.mem_append]
  grind

/-- A solution stays one when its types are instantiated further. -/
theorem Solves.comp {θ : Assignment} {C : List (Constraint Empty)} (h : Solves θ C)
    (ρ : Assignment) : Solves (fun a => (θ a).inst ρ) C := by
  intro c hc
  rw [← Ty.inst_inst, ← Ty.inst_inst, h c hc]

/-- A variable occurs in a constraint when it occurs on one of its sides. -/
def Constraint.Mentions (c : Constraint Empty) (a : String) : Prop :=
  a ∈ c.left.freeVars ∨ a ∈ c.right.freeVars

/-- A variable occurs in constraints when it occurs in one of them. -/
def Constraint.MentionedIn (C : List (Constraint Empty)) (a : String) : Prop :=
  ∃ c ∈ C, c.Mentions a

@[simp] theorem Constraint.mentionedIn_nil {a : String} : ¬ MentionedIn [] a := by
  simp [MentionedIn]

/-- A variable of a list of constraints is one of the first or of the others. -/
@[simp] theorem Constraint.mentionedIn_cons {c : Constraint Empty}
    {C : List (Constraint Empty)} {a : String} :
    MentionedIn (c :: C) a ↔ c.Mentions a ∨ MentionedIn C a := by
  simp [MentionedIn]

@[simp] theorem Constraint.mentionedIn_append {C D : List (Constraint Empty)} {a : String} :
    MentionedIn (C ++ D) a ↔ MentionedIn C a ∨ MentionedIn D a := by
  simp [MentionedIn, or_and_right, exists_or]

/-- The variables of constraints. -/
def Constraint.vars (C : List (Constraint Empty)) : Finset String :=
  (C.flatMap fun c => (c.left.freeVars ∪ c.right.freeVars).toList).toFinset

/-- The variables that are counted are the variables that are mentioned. -/
@[simp] theorem Constraint.mem_vars {C : List (Constraint Empty)} {a : String} :
    a ∈ vars C ↔ MentionedIn C a := by
  simp [vars, MentionedIn, Mentions, OrderedSet.mem_toList]

/-- One constraint has as many variables as its sides have in common listing. -/
theorem Constraint.card_vars_singleton (l r : MonoTy) :
    (vars [⟨l, r⟩]).card = (l.freeVars ∪ r.freeVars).size := by
  have hlist : vars [⟨l, r⟩] = (l.freeVars ∪ r.freeVars).toList.toFinset := by
    simp [vars]
  rw [hlist]
  exact List.toFinset_card_of_nodup (l.freeVars ∪ r.freeVars).nodup

/-- Whether an assignment solves constraints depends on the variables in them only. -/
theorem Solves.congr {θ ρ : Assignment} {C : List (Constraint Empty)} (h : Solves θ C)
    (hagree : ∀ a, Constraint.MentionedIn C a → ρ a = θ a) : Solves ρ C := by
  intro c hc
  have hleft : c.left.inst ρ = c.left.inst θ :=
    Ty.inst_congr fun a ha => hagree a ⟨c, hc, Or.inl ha⟩
  have hright : c.right.inst ρ = c.right.inst θ :=
    Ty.inst_congr fun a ha => hagree a ⟨c, hc, Or.inr ha⟩
  rw [hleft, hright, h c hc]

/-! ## Resolved substitutions -/

namespace Subst

/-- A substitution over some variables is resolved when none of the variables that it
replaces is left in an image. -/
structure ResolvedIn (s : Subst Empty) (V : Set String) : Prop where
  /-- Only the given variables are replaced. -/
  bound_mem : ∀ {a t}, s.get? a = some t → a ∈ V
  /-- Only the given variables are put in. -/
  image_mem : ∀ {a t b}, s.get? a = some t → b ∈ t.freeVars → b ∈ V
  /-- No variable that is put in is replaced. -/
  image_unbound : ∀ {a t b}, s.get? a = some t → b ∈ t.freeVars → s.get? b = none

/-- A substitution is absorbed by an assignment that does its work already. -/
def AbsorbedBy (s : Subst Empty) (θ : Assignment) : Prop :=
  ∀ a, (s.image a).inst θ = θ a

/-- Applying an absorbed substitution first makes no difference. -/
theorem AbsorbedBy.inst_apply {s : Subst Empty} {θ : Assignment} (h : s.AbsorbedBy θ)
    (t : MonoTy) : (t.apply s).inst θ = t.inst θ := by
  rw [Ty.apply_eq_inst, Ty.inst_inst]
  exact Ty.inst_congr fun a _ => h a

/-- Two absorbed substitutions are absorbed one after the other. -/
theorem AbsorbedBy.compose {s₁ s₂ : Subst Empty} {θ : Assignment} (h₁ : s₁.AbsorbedBy θ)
    (h₂ : s₂.AbsorbedBy θ) : (Subst.compose s₂ s₁).AbsorbedBy θ := by
  intro a
  calc ((Subst.compose s₂ s₁).image a).inst θ
      = ((s₁.image a).inst s₂.image).inst θ := by rw [image_compose]
    _ = (s₁.image a).inst θ := by
        rw [Ty.inst_inst]
        exact Ty.inst_congr fun b _ => h₂ b
    _ = θ a := h₁ a

/-- A variable of an image of a resolved substitution was that variable or was put in. -/
theorem ResolvedIn.mem_image {s : Subst Empty} {V : Set String} (h : s.ResolvedIn V)
    {a b : String} (hb : b ∈ (s.image a).freeVars) :
    (b = a ∧ s.get? a = none) ∨ (b ∈ V ∧ s.get? b = none) := by
  cases hs : s.get? a with
  | none =>
      rw [image_of_get?_eq_none hs, Ty.mem_freeVars_var] at hb
      exact Or.inl ⟨hb, rfl⟩
  | some t =>
      rw [image_of_get?_eq_some hs] at hb
      exact Or.inr ⟨h.image_mem hs hb, h.image_unbound hs hb⟩

/-- No variable of an image of a resolved substitution is replaced by it. -/
theorem ResolvedIn.get?_of_mem_image {s : Subst Empty} {V : Set String} (h : s.ResolvedIn V)
    {a b : String} (hb : b ∈ (s.image a).freeVars) : s.get? b = none := by
  rcases h.mem_image hb with ⟨rfl, hnone⟩ | ⟨-, hnone⟩
  · exact hnone
  · exact hnone

/-- The empty substitution is resolved, over any variables. -/
theorem resolvedIn_empty (V : Set String) : ResolvedIn ∅ V where
  bound_mem h := by simp at h
  image_mem h := by simp at h
  image_unbound h := by simp at h

/-- A substitution that is resolved over some variables is so over more of them. -/
theorem ResolvedIn.mono {s : Subst Empty} {V W : Set String} (h : s.ResolvedIn V)
    (hVW : V ⊆ W) : s.ResolvedIn W where
  bound_mem hget := hVW (h.bound_mem hget)
  image_mem hget hb := hVW (h.image_mem hget hb)
  image_unbound := h.image_unbound

/-- A composition binds what one of its parts binds. -/
theorem get?_compose_eq_none {s₁ s₂ : Subst Empty} {a : String} :
    (compose s₁ s₂).get? a = none ↔ s₂.get? a = none ∧ s₁.get? a = none := by
  rw [get?_compose]
  cases Bindings.get? s₂ a <;> simp

/-- Composing with a resolved substitution over variables that the first one leaves
alone gives a resolved substitution. -/
theorem ResolvedIn.compose {s₁ s₂ : Subst Empty} {V W : Set String} (h₁ : s₁.ResolvedIn V)
    (h₂ : s₂.ResolvedIn W) (hW : ∀ a ∈ W, a ∈ V ∧ s₁.get? a = none) :
    (Subst.compose s₂ s₁).ResolvedIn V := by
  -- an image of the composition is the image of a variable under both substitutions
  have himage : ∀ {a t b}, (Subst.compose s₂ s₁).get? a = some t → b ∈ t.freeVars →
      b ∈ V ∧ (Subst.compose s₂ s₁).get? b = none := by
    intro a t b hget hb
    rw [get?_compose] at hget
    rw [get?_compose_eq_none]
    cases hs : s₁.get? a with
    | none =>
        have hs₂ : s₂.get? a = some t := by simpa [hs] using hget
        have hbW := h₂.image_mem hs₂ hb
        exact ⟨(hW b hbW).1, (hW b hbW).2, h₂.image_unbound hs₂ hb⟩
    | some u =>
        have ht : u.apply s₂ = t := by simpa [hs] using hget
        rw [← ht, Ty.apply_eq_inst, Ty.mem_freeVars_inst] at hb
        obtain ⟨d, hd, hbd⟩ := hb
        rcases h₂.mem_image hbd with ⟨rfl, hnone⟩ | ⟨hbW, hnone⟩
        · exact ⟨h₁.image_mem hs hd, h₁.image_unbound hs hd, hnone⟩
        · exact ⟨(hW b hbW).1, (hW b hbW).2, hnone⟩
  refine ⟨?_, fun hget hb => (himage hget hb).1, fun hget hb => (himage hget hb).2⟩
  intro a t hget
  rw [get?_compose] at hget
  cases hs : s₁.get? a with
  | none => exact (hW a (h₂.bound_mem (by simpa [hs] using hget))).1
  | some u => exact h₁.bound_mem hs

end Subst

/-! ## Outcomes that settle constraints -/

/-- A resolved solution of constraints through which every solution factors. -/
structure MostGeneral (C : List (Constraint Empty)) (V : Set String) (s : Subst Empty) :
    Prop where
  /-- The solution is over the given variables and is resolved. -/
  resolved : s.ResolvedIn V
  /-- It solves the constraints. -/
  solves : Solves s.image C
  /-- Every solution factors through it. -/
  absorbed : ∀ {θ}, Solves θ C → s.AbsorbedBy θ

/-- An outcome settles constraints when it is a most general solution of them, or a
failure and there is none. -/
def Settles (C : List (Constraint Empty)) (V : Set String) :
    Checked Empty (Subst Empty) → Prop
  | .ok s => MostGeneral C V s
  | .error _ => ∀ θ, ¬ Solves θ C

/-- The substitution that settles constraints is resolved. -/
theorem Settles.resolvedIn {C : List (Constraint Empty)} {V : Set String}
    {outcome : Checked Empty (Subst Empty)} {s : Subst Empty} (h : Settles C V outcome)
    (hs : outcome = .ok s) : s.ResolvedIn V := by
  rw [hs] at h
  exact h.resolved

/-- Settling depends on the solutions of the constraints only. -/
theorem Settles.of_iff {C D : List (Constraint Empty)} {V : Set String}
    {outcome : Checked Empty (Subst Empty)} (h : Settles C V outcome)
    (hiff : ∀ θ, Solves θ C ↔ Solves θ D) : Settles D V outcome := by
  cases outcome with
  | error error => exact fun θ hθ => h θ ((hiff θ).2 hθ)
  | ok s =>
      exact ⟨h.resolved, (hiff _).1 h.solves, fun hθ => h.absorbed ((hiff _).2 hθ)⟩

/-- Constraints with no solution are settled by a failure. -/
theorem settles_error {C : List (Constraint Empty)} {V : Set String}
    {error : CheckError Empty} (h : ∀ θ, ¬ Solves θ C) : Settles C V (.error error) :=
  h

/-- Constraints that every assignment solves are settled by the empty substitution. -/
theorem settles_empty {C : List (Constraint Empty)} {V : Set String}
    (h : ∀ θ, Solves θ C) : Settles C V (.ok ∅) where
  resolved := Subst.resolvedIn_empty V
  solves := h _
  absorbed _ := fun _ => rfl

/-- A substitution applied to constraints, seen by an assignment that absorbs it. -/
theorem Subst.AbsorbedBy.solves_map_apply {s : Subst Empty} {θ : Assignment}
    {C : List (Constraint Empty)} (h : s.AbsorbedBy θ) :
    Solves θ (C.map fun c => c.apply s) ↔ Solves θ C := by
  simp [Solves, Constraint.apply, h.inst_apply]

/-- Solving some constraints first, and then others under their solution, solves them
all. -/
theorem Settles.andThen {C₁ C₂ : List (Constraint Empty)} {V W : Set String}
    {s₁ : Subst Empty} {outcome : Checked Empty (Subst Empty)} (h₁ : MostGeneral C₁ V s₁)
    (hW : ∀ a ∈ W, a ∈ V ∧ s₁.get? a = none)
    (h₂ : Settles (C₂.map fun c => c.apply s₁) W outcome) :
    Settles (C₁ ++ C₂) V (do return Subst.compose (← outcome) s₁) := by
  cases outcome with
  | error error =>
      intro θ hθ
      obtain ⟨hθ₁, hθ₂⟩ := solves_append.1 hθ
      exact h₂ θ ((h₁.absorbed hθ₁).solves_map_apply.2 hθ₂)
  | ok s₂ =>
      have hsettled : MostGeneral (C₂.map fun c => c.apply s₁) W s₂ := h₂
      have himage : (Subst.compose s₂ s₁).image = fun a => (s₁.image a).inst s₂.image :=
        funext fun a => Subst.image_compose s₂ s₁ a
      refine ⟨h₁.resolved.compose hsettled.resolved hW, ?_, ?_⟩
      · rw [himage, solves_append]
        refine ⟨h₁.solves.comp _, ?_⟩
        intro c hc
        have hc₂ := hsettled.solves (c.apply s₁) (List.mem_map_of_mem hc)
        simpa only [Constraint.apply, Ty.apply_eq_inst, Ty.inst_inst] using hc₂
      · intro θ hθ
        obtain ⟨hθ₁, hθ₂⟩ := solves_append.1 hθ
        have habs₁ := h₁.absorbed hθ₁
        exact habs₁.compose (hsettled.absorbed (habs₁.solves_map_apply.2 hθ₂))

/-! ## One equation -/

namespace Ty

/-- The image of a variable is no larger than the instance of a type in which it occurs. -/
theorem sizeOf_le_inst (θ : Assignment) {v : String} {t : MonoTy} (h : v ∈ t.freeVars) :
    sizeOf (θ v) ≤ sizeOf (t.inst θ) := by
  induction t using monoInduction with
  | var name =>
      rw [mem_freeVars_var] at h
      rw [h, inst_var]
  | con name => exact absurd h mem_freeVars_con
  | fn argument result ih₁ ih₂ =>
      rw [inst_fn, fn.sizeOf_spec]
      rcases mem_freeVars_fn.1 h with h | h
      · have := ih₁ h
        omega
      · have := ih₂ h
        omega
  | list element ih =>
      rw [inst_list, list.sizeOf_spec]
      have := ih h
      omega
  | pair first second ih₁ ih₂ =>
      rw [inst_pair, pair.sizeOf_spec]
      rcases mem_freeVars_pair.1 h with h | h
      · have := ih₁ h
        omega
      · have := ih₂ h
        omega

/-- A variable never equals a larger type in which it occurs. -/
theorem ne_inst_of_mem_freeVars (θ : Assignment) {v : String} {t : MonoTy}
    (h : v ∈ t.freeVars) (hne : t ≠ var v) : θ v ≠ t.inst θ := by
  intro heq
  have hsize : sizeOf (θ v) = sizeOf (t.inst θ) := congrArg sizeOf heq
  induction t using monoInduction with
  | var name =>
      rw [mem_freeVars_var] at h
      exact hne (by rw [h])
  | con name => exact mem_freeVars_con h
  | fn argument result _ _ =>
      rw [inst_fn, fn.sizeOf_spec] at hsize
      rcases mem_freeVars_fn.1 h with h | h
      · have := sizeOf_le_inst θ h
        omega
      · have := sizeOf_le_inst θ h
        omega
  | list element _ =>
      rw [inst_list, list.sizeOf_spec] at hsize
      have := sizeOf_le_inst θ (mem_freeVars_list.1 h)
      omega
  | pair first second _ _ =>
      rw [inst_pair, pair.sizeOf_spec] at hsize
      rcases mem_freeVars_pair.1 h with h | h
      · have := sizeOf_le_inst θ h
        omega
      · have := sizeOf_le_inst θ h
        omega

/-- A substitution of one variable, said through its images. -/
theorem image_single (v : String) (t : MonoTy) (a : String) :
    Subst.image (.single v t) a = if a = v then t else var a := by
  by_cases h : a = v
  · subst h
    simp [Subst.image, Bindings.single, Bindings.get?]
  · have hbeq : (a == v) = false := by simp [h]
    simp [Subst.image, Bindings.single, Bindings.get?, List.lookup_cons, hbeq, h]

private theorem get?_single {v a : String} {t u : MonoTy}
    (h : (Bindings.single v t).get? a = some u) : a = v ∧ u = t := by
  by_cases ha : a = v
  · subst ha
    simp only [Bindings.single, Bindings.get?, List.lookup_cons_self,
      Option.some.injEq] at h
    exact ⟨rfl, h.symm⟩
  · have hbeq : (a == v) = false := by simp [ha]
    simp [Bindings.single, Bindings.get?, List.lookup_cons, hbeq] at h

/-- Binding a variable settles its equality with a type. -/
theorem bindVar_settles {v : String} {t : MonoTy} {V : Set String} (hv : v ∈ V)
    (ht : ∀ a ∈ t.freeVars, a ∈ V) : Settles [⟨var v, t⟩] V (bindVar v t) := by
  unfold bindVar
  split_ifs with hself hocc
  · subst hself
    exact settles_empty fun θ => by simp
  · refine settles_error fun θ hθ => ?_
    have heq : θ v = t.inst θ := by simpa using hθ
    exact ne_inst_of_mem_freeVars θ hocc hself heq
  · have hfresh : ∀ a ∈ t.freeVars, (Bindings.single v t).get? a = none := by
      intro a ha
      cases hget : (Bindings.single v t).get? a with
      | none => rfl
      | some u => exact absurd ((get?_single hget).1 ▸ ha) hocc
    refine ⟨⟨?_, ?_, ?_⟩, ?_, ?_⟩
    · intro a u hget
      exact (get?_single hget).1 ▸ hv
    · intro a u b hget hb
      exact ht b ((get?_single hget).2 ▸ hb)
    · intro a u b hget hb
      exact hfresh b ((get?_single hget).2 ▸ hb)
    · have hfix : t.inst (Subst.image (.single v t)) = t.inst var :=
        inst_congr fun a ha => Subst.image_of_get?_eq_none (hfresh a ha)
      simp [hfix, image_single]
    · intro θ hθ a
      have heq : θ v = t.inst θ := by simpa using hθ
      rw [image_single]
      by_cases ha : a = v
      · rw [if_pos ha, ha, heq]
      · rw [if_neg ha, inst_var]

/-- The two sides of an equation may be exchanged. -/
theorem settles_swap {l r : MonoTy} {V : Set String}
    {outcome : Checked Empty (Subst Empty)} (h : Settles [⟨l, r⟩] V outcome) :
    Settles [⟨r, l⟩] V outcome :=
  h.of_iff fun θ => by simp [eq_comm]

/-! ## Rounds of unification -/

section Round

variable {next : MonoTy → MonoTy → Checked Empty (Subst Empty)}

/-- What a round does with the second parts of two types behind the unifier of the first
parts. -/
def unifySecond (next : MonoTy → MonoTy → Checked Empty (Subst Empty)) (b d : MonoTy)
    (s₁ : Subst Empty) : Checked Empty (Subst Empty) :=
  if s₁.isEmpty then unifyRound next b d else next (b.apply s₁) (d.apply s₁)

/-- What a round does with two function types or two pair types. -/
def unifyParts (next : MonoTy → MonoTy → Checked Empty (Subst Empty)) (a b c d : MonoTy) :
    Checked Empty (Subst Empty) := do
  let s₁ ← unifyRound next a c
  return Subst.compose (← unifySecond next b d s₁) s₁

/-- Equal types end a round at once. -/
theorem unifyRound_self (t : MonoTy) : unifyRound next t t = .ok ∅ := by
  cases t with
  | quantified mark _ _ => exact mark.elim
  | _ => simp [unifyRound, checkUnifiable, Bind.bind, Except.bind]; rfl

/-- A variable on the left is bound. -/
theorem unifyRound_var_left {v : String} {t : MonoTy} (h : var v ≠ t) :
    unifyRound next (var v) t = bindVar v t := by
  cases t with
  | quantified mark _ _ => exact mark.elim
  | _ => simp_all [unifyRound, checkUnifiable, Bind.bind, Except.bind]

/-- A variable on the right is bound if there is none on the left. -/
theorem unifyRound_var_right {v : String} {t : MonoTy} (h : ∀ u, t ≠ var u) :
    unifyRound next t (var v) = bindVar v t := by
  cases t with
  | quantified mark _ _ => exact mark.elim
  | var u => exact absurd rfl (h u)
  | _ => simp [unifyRound, checkUnifiable, Bind.bind, Except.bind]

/-- A round goes into argument and result. -/
theorem unifyRound_fn {a b c d : MonoTy} (h : fn a b ≠ fn c d) :
    unifyRound next (fn a b) (fn c d) = unifyParts next a b c d := by
  rw [unifyRound]
  simp only [checkUnifiable, h, if_false, unifyParts]
  cases unifyRound next a c with
  | error error => rfl
  | ok s₁ => by_cases hs : s₁.isEmpty <;> simp [hs, unifySecond, Bind.bind, Except.bind]

/-- A round goes into both components. -/
theorem unifyRound_pair {a b c d : MonoTy} (h : pair a b ≠ pair c d) :
    unifyRound next (pair a b) (pair c d) = unifyParts next a b c d := by
  rw [unifyRound]
  simp only [checkUnifiable, h, if_false, unifyParts]
  cases unifyRound next a c with
  | error error => rfl
  | ok s₁ => by_cases hs : s₁.isEmpty <;> simp [hs, unifySecond, Bind.bind, Except.bind]

/-- A round goes on with the elements. -/
theorem unifyRound_list {a c : MonoTy} (h : list a ≠ list c) :
    unifyRound next (list a) (list c) = unifyRound next a c := by
  rw [unifyRound]
  simp only [checkUnifiable, h, if_false]
  rfl

/-- The types over some variables: no other variable is free in them. -/
def Over (V : Set String) (t : MonoTy) : Prop :=
  ∀ a ∈ t.freeVars, a ∈ V

/-- A function type is over the variables that its parts are over. -/
theorem over_fn {V : Set String} {t u : MonoTy} :
    (fn t u).Over V ↔ t.Over V ∧ u.Over V := by
  simp only [Over, mem_freeVars_fn]
  grind

/-- So is a pair type. -/
theorem over_pair {V : Set String} {t u : MonoTy} :
    (pair t u).Over V ↔ t.Over V ∧ u.Over V := by
  simp only [Over, mem_freeVars_pair]
  grind

/-- A resolved substitution removes the variables that it replaces. -/
theorem Over.apply {V : Set String} {t : MonoTy} {s : Subst Empty} (ht : t.Over V)
    (hs : s.ResolvedIn V) : (t.apply s).Over {a | a ∈ V ∧ s.get? a = none} := by
  intro b hb
  rw [apply_eq_inst, mem_freeVars_inst] at hb
  obtain ⟨a, ha, hba⟩ := hb
  rcases hs.mem_image hba with ⟨rfl, hnone⟩ | hmem
  · exact ⟨ht b ha, hnone⟩
  · exact hmem

/-- A substitution with a binding replaces some variable. -/
theorem exists_get?_of_not_isEmpty {s : Subst Empty} (h : ¬ s.isEmpty) :
    ∃ a t, s.get? a = some t := by
  obtain ⟨entries, hnodup⟩ := s
  cases entries with
  | nil => exact absurd rfl h
  | cons entry rest =>
      obtain ⟨key, value⟩ := entry
      exact ⟨key, value, by simp [Bindings.get?]⟩

/-- Behind a resolved substitution only the variables are left that it does not replace. -/
theorem Over.apply_filter {V : Finset String} {t : MonoTy} {s : Subst Empty} (ht : t.Over V)
    (hs : s.ResolvedIn V) : (t.apply s).Over (V.filter fun a => s.get? a = none) := by
  intro a ha
  have hmem := ht.apply hs a ha
  simpa using hmem

/-- A resolved substitution with a binding leaves fewer variables. -/
theorem card_filter_lt_of_not_isEmpty {V : Finset String} {s : Subst Empty}
    (hs : s.ResolvedIn V) (hempty : ¬ s.isEmpty) :
    (V.filter fun a => s.get? a = none).card < V.card := by
  obtain ⟨a, t, ha⟩ := exists_get?_of_not_isEmpty hempty
  have haV : a ∈ V := by simpa using hs.bound_mem ha
  refine Finset.card_lt_card (Finset.filter_ssubset.2 ⟨a, haV, ?_⟩)
  simp [ha]

/-- The next round has fewer variables to deal with than the round that starts it. -/
def SettlesBelow (V : Finset String) (next : MonoTy → MonoTy → Checked Empty (Subst Empty)) :
    Prop :=
  ∀ W : Finset String, W.card < V.card → ∀ l r : MonoTy, l.Over W → r.Over W →
    Settles [⟨l, r⟩] W (next l r)

/-- Two parts are settled when each of them is, and the next round settles types with
fewer variables. -/
theorem unifyParts_settles {V : Finset String} {a b c d : MonoTy}
    (hnext : SettlesBelow V next) (hb : b.Over V) (hd : d.Over V)
    (h₁ : Settles [⟨a, c⟩] V (unifyRound next a c))
    (h₂ : Settles [⟨b, d⟩] V (unifyRound next b d)) :
    Settles [⟨a, c⟩, ⟨b, d⟩] V (unifyParts next a b c d) := by
  unfold unifyParts
  cases hfirst : unifyRound next a c with
  | error error =>
      rw [hfirst] at h₁
      exact settles_error fun θ hθ => h₁ θ (by simp_all)
  | ok s₁ =>
      rw [hfirst] at h₁
      have hgeneral : MostGeneral [⟨a, c⟩] V s₁ := h₁
      -- what is left has the variables that the first unifier does not replace
      let W : Finset String := V.filter fun x => s₁.get? x = none
      have hW : ∀ x, x ∈ W ↔ x ∈ V ∧ s₁.get? x = none := by simp [W]
      have hsecond : Settles ([⟨b, d⟩].map fun k : Constraint Empty => k.apply s₁) W
          (unifySecond next b d s₁) := by
        unfold unifySecond
        by_cases hempty : s₁.isEmpty
        · have hs : s₁ = ∅ := Bindings.ext_entries (List.isEmpty_iff.1 hempty)
          have hWV : W = V := by
            ext x
            simp [hW, hs]
          rw [if_pos hempty, hWV, hs]
          simpa [Constraint.apply] using h₂
        · rw [if_neg hempty]
          exact hnext W (card_filter_lt_of_not_isEmpty hgeneral.resolved hempty) _ _
            (hb.apply_filter hgeneral.resolved) (hd.apply_filter hgeneral.resolved)
      refine Settles.andThen hgeneral (fun x hx => ?_) hsecond
      simpa [hW] using hx

/-- One round settles the equality of two types when the next one settles types with fewer
variables. -/
theorem unifyRound_settles {V : Finset String} (hnext : SettlesBelow V next) {l r : MonoTy}
    (hl : l.Over V) (hr : r.Over V) : Settles [⟨l, r⟩] V (unifyRound next l r) := by
  induction l using monoInduction generalizing r with
  | var v =>
      by_cases heq : var v = r
      · rw [← heq, unifyRound_self]
        exact settles_empty fun θ => by simp
      · rw [unifyRound_var_left heq]
        exact bindVar_settles (hl v (by simp)) hr
  | con name =>
      cases r with
      | quantified mark _ _ => exact mark.elim
      | var v =>
          rw [unifyRound_var_right (by simp)]
          exact settles_swap (bindVar_settles (hr v (by simp)) hl)
      | con other =>
          by_cases heq : name = other
          · rw [heq, unifyRound_self]
            exact settles_empty fun θ => by simp
          · simp [unifyRound, checkUnifiable, Bind.bind, Except.bind, heq, Settles]
      | _ => simp [unifyRound, checkUnifiable, Bind.bind, Except.bind, Settles]
  | fn a b ih₁ ih₂ =>
      obtain ⟨ha, hb⟩ := over_fn.1 hl
      cases r with
      | quantified mark _ _ => exact mark.elim
      | var v =>
          rw [unifyRound_var_right (by simp)]
          exact settles_swap (bindVar_settles (hr v (by simp)) hl)
      | fn c d =>
          obtain ⟨hc, hd⟩ := over_fn.1 hr
          by_cases heq : fn a b = fn c d
          · rw [heq, unifyRound_self]
            exact settles_empty fun θ => by simp
          · rw [unifyRound_fn heq]
            exact (unifyParts_settles hnext hb hd (ih₁ ha hc) (ih₂ hb hd)).of_iff
              fun θ => by simp
      | _ => simp [unifyRound, checkUnifiable, Bind.bind, Except.bind, Settles]
  | list a ih =>
      cases r with
      | quantified mark _ _ => exact mark.elim
      | var v =>
          rw [unifyRound_var_right (by simp)]
          exact settles_swap (bindVar_settles (hr v (by simp)) hl)
      | list c =>
          by_cases heq : list a = list c
          · rw [heq, unifyRound_self]
            exact settles_empty fun θ => by simp
          · rw [unifyRound_list heq]
            exact (ih (r := c) hl hr).of_iff fun θ => by simp
      | _ => simp [unifyRound, checkUnifiable, Bind.bind, Except.bind, Settles]
  | pair a b ih₁ ih₂ =>
      obtain ⟨ha, hb⟩ := over_pair.1 hl
      cases r with
      | quantified mark _ _ => exact mark.elim
      | var v =>
          rw [unifyRound_var_right (by simp)]
          exact settles_swap (bindVar_settles (hr v (by simp)) hl)
      | pair c d =>
          obtain ⟨hc, hd⟩ := over_pair.1 hr
          by_cases heq : pair a b = pair c d
          · rw [heq, unifyRound_self]
            exact settles_empty fun θ => by simp
          · rw [unifyRound_pair heq]
            exact (unifyParts_settles hnext hb hd (ih₁ ha hc) (ih₂ hb hd)).of_iff
              fun θ => by simp
      | _ => simp [unifyRound, checkUnifiable, Bind.bind, Except.bind, Settles]

end Round

/-- As many rounds as there are variables settle the equality of two types. -/
theorem unifyRounds_settles {rounds : Nat} {V : Finset String} (hV : V.card ≤ rounds)
    {l r : MonoTy} (hl : l.Over V) (hr : r.Over V) :
    Settles [⟨l, r⟩] V (unifyRounds rounds l r) := by
  induction rounds generalizing V l r with
  | zero =>
      refine unifyRound_settles (fun W hW => ?_) hl hr
      omega
  | succ rounds ih =>
      refine unifyRound_settles (fun W hW l r hl hr => ?_) hl hr
      exact ih (by omega) hl hr

/-- The two sides of a constraint are types over its variables. -/
theorem over_vars (l r : MonoTy) :
    l.Over (Constraint.vars [⟨l, r⟩]) ∧ r.Over (Constraint.vars [⟨l, r⟩]) := by
  constructor
  · intro a ha
    simp [Constraint.Mentions, ha]
  · intro a ha
    simp [Constraint.Mentions, ha]

/-- Unification settles the equality of two types. -/
theorem unify_settles (l r : MonoTy) :
    Settles [⟨l, r⟩] {a | a ∈ l.freeVars ∨ a ∈ r.freeVars} (l.unify r) := by
  have hset : (Constraint.vars [⟨l, r⟩] : Set String) =
      {a | a ∈ l.freeVars ∨ a ∈ r.freeVars} := by
    ext a
    simp [Constraint.Mentions]
  rw [← hset]
  obtain ⟨hl, hr⟩ := over_vars l r
  exact unifyRounds_settles (le_of_eq (Constraint.card_vars_singleton l r)) hl hr

end Ty

namespace Constraint

/-- A row of substitutions acts like their composition. -/
theorem foldl_apply (found : List (Subst Empty)) (s : Subst Empty) (c : Constraint Empty) :
    found.foldl Constraint.apply (c.apply s) =
      c.apply (found.foldl (fun s next => Subst.compose next s) s) := by
  induction found generalizing s with
  | nil => rfl
  | cons next rest ih =>
      have hcompose : (c.apply s).apply next = c.apply (Subst.compose next s) := by
        have himage : (Subst.compose next s).image =
            fun a => (s.image a).inst next.image :=
          funext fun a => Subst.image_compose next s a
        simp only [Constraint.apply, Ty.apply_eq_inst, Ty.inst_inst, himage]
      rw [List.foldl_cons, List.foldl_cons, hcompose, ih]

/-- The first constraint is solved last, under the solution of the others. -/
theorem solve_cons (c : Constraint Empty) (rest : List (Constraint Empty)) :
    solve (c :: rest) = (do
      let s₁ ← solve rest
      return Subst.compose (← (c.apply s₁).left.unify (c.apply s₁).right) s₁) := by
  simp only [solve, unifiers]
  cases unifiers rest with
  | error error => rfl
  | ok found =>
      have hfold : found.foldl Constraint.apply c =
          c.apply (found.foldl (fun s next => Subst.compose next s) ∅) := by
        have hempty : c.apply ∅ = c := by simp [Constraint.apply]
        conv_lhs => rw [← hempty]
        exact foldl_apply found ∅ c
      simp only [Bind.bind, Except.bind, Pure.pure, Except.pure, hfold]
      cases hunify : (c.apply (found.foldl (fun s next => Subst.compose next s) ∅)).left.unify
          (c.apply (found.foldl (fun s next => Subst.compose next s) ∅)).right with
      | error error => rfl
      | ok s => simp [List.foldl_append]

/-- The solver settles every list of constraints. -/
theorem solve_settles (C : List (Constraint Empty)) :
    Settles C {a | MentionedIn C a} (solve C) := by
  induction C with
  | nil => exact settles_empty solves_nil
  | cons c rest ih =>
      rw [solve_cons]
      cases hrest : solve rest with
      | error error =>
          rw [hrest] at ih
          exact settles_error fun θ hθ => ih θ (solves_cons.1 hθ).2
      | ok s₁ =>
          rw [hrest] at ih
          have hgeneral : MostGeneral rest {a | MentionedIn (c :: rest) a} s₁ := by
            have hrest : MostGeneral rest {a | MentionedIn rest a} s₁ := ih
            refine ⟨hrest.resolved.mono ?_, hrest.solves, hrest.absorbed⟩
            intro a ha
            exact mentionedIn_cons.2 (Or.inr ha)
          have hunify : Settles ([c].map fun k => k.apply s₁)
              {a | a ∈ (c.apply s₁).left.freeVars ∨ a ∈ (c.apply s₁).right.freeVars}
              ((c.apply s₁).left.unify (c.apply s₁).right) :=
            Ty.unify_settles _ _
          refine (Settles.andThen hgeneral ?_ hunify).of_iff fun θ => by simp [and_comm]
          have hover : ∀ t : MonoTy, (∀ a ∈ t.freeVars, c.Mentions a) →
              (t.apply s₁).Over {a | MentionedIn (c :: rest) a ∧ s₁.get? a = none} :=
            fun t ht => Ty.Over.apply
              (fun a ha => mentionedIn_cons.2 (Or.inl (ht a ha))) hgeneral.resolved
          rintro a (ha | ha)
          · exact hover c.left (fun b hb => Or.inl hb) a ha
          · exact hover c.right (fun b hb => Or.inr hb) a ha

/-- A list of constraints with a solution is solved, most generally. -/
theorem exists_solve_of_solves {C : List (Constraint Empty)} {θ : Assignment}
    (h : Solves θ C) :
    ∃ s, solve C = .ok s ∧ MostGeneral C {a | MentionedIn C a} s := by
  have hsettles := solve_settles C
  cases hsolve : solve C with
  | error error =>
      rw [hsolve] at hsettles
      exact absurd h (hsettles θ)
  | ok s =>
      rw [hsolve] at hsettles
      exact ⟨s, rfl, hsettles⟩

/-- What the solver answers is a most general solution. -/
theorem mostGeneral_of_solve {C : List (Constraint Empty)} {s : Subst Empty}
    (h : solve C = .ok s) : MostGeneral C {a | MentionedIn C a} s := by
  have hsettles := solve_settles C
  rw [h] at hsettles
  exact hsettles

end Constraint

end LetPoly
