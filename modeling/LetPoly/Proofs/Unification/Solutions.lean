import LetPoly.Proofs.Unification.Parts

/-!
# Most general unifiers

The solver, unification of two types and unification of two sequences of types have one
contract.  What they return is a most general unifier, they return whenever there is a
unifier, and what they return is in solved form: none of the variables that it replaces is
left anywhere in its images, so a second application changes nothing.

Main results:

- Theorem {lit}`Settles.findsUnifier`: an outcome that settles constraints finds a unifier of
  them.
- Theorem {lit}`Subst.ResolvedIn.solvedForm`: a resolved substitution is in solved form.
- Theorem {lit}`unification_finds_mostGeneral`: the contract holds of all three.
- Theorem {lit}`unification_solvedForm`: all three return solved forms.
-/

namespace LetPoly

/-! ## Unifiers -/

namespace Subst

/-- A substitution unifies constraints when it makes the two sides of each the same type. -/
def Unifies (u : Subst Empty) (C : List (Constraint Empty)) : Prop :=
  ∀ c ∈ C, c.left.apply u = c.right.apply u

/-- A substitution has a property and is the most general one that has it: applied before
any other one, it makes no difference. -/
structure IsMostGeneral (s : Subst Empty) (P : Subst Empty → Prop) : Prop where
  /-- The substitution has the property. -/
  holds : P s
  /-- Every substitution with the property does its work already. -/
  absorbed : ∀ u, P u → ∀ t : MonoTy, (t.apply s).apply u = t.apply u

/-- The unifiers of constraints are the solutions among the substitutions. -/
theorem unifies_iff_solves {u : Subst Empty} {C : List (Constraint Empty)} :
    u.Unifies C ↔ Solves u.image C := by
  simp only [Unifies, Solves, Ty.apply_eq_inst]

/-- A substitution that is absorbed by another one makes no difference before it. -/
theorem AbsorbedBy.apply_apply {s u : Subst Empty} (h : s.AbsorbedBy u.image) (t : MonoTy) :
    (t.apply s).apply u = t.apply u := by
  rw [Ty.apply_eq_inst _ u, Ty.apply_eq_inst t u]
  exact h.inst_apply t

end Subst

/-- An outcome finds a unifier of constraints if there is one, and the most general one. -/
structure FindsUnifier (C : List (Constraint Empty)) (outcome : Checked Empty (Subst Empty)) :
    Prop where
  /-- What is returned is a most general unifier. -/
  mostGeneral : ∀ s, outcome = .ok s → s.IsMostGeneral fun u => u.Unifies C
  /-- If there is a unifier, one is returned. -/
  returns : ∀ u : Subst Empty, u.Unifies C → ∃ s, outcome = .ok s

/-- A most general solution is a most general unifier. -/
theorem MostGeneral.isMostGeneral {C : List (Constraint Empty)} {V : Set String}
    {s : Subst Empty} (h : MostGeneral C V s) : s.IsMostGeneral fun u => u.Unifies C where
  holds := Subst.unifies_iff_solves.2 h.solves
  absorbed _ hu t := (h.absorbed (Subst.unifies_iff_solves.1 hu)).apply_apply t

/-- An outcome that settles constraints finds a unifier of them. -/
theorem Settles.findsUnifier {C : List (Constraint Empty)} {V : Set String}
    {outcome : Checked Empty (Subst Empty)} (h : Settles C V outcome) :
    FindsUnifier C outcome := by
  cases outcome with
  | ok s =>
      constructor
      · intro s' heq
        cases heq
        exact MostGeneral.isMostGeneral h
      · intro u _
        exact ⟨s, rfl⟩
  | error error =>
      constructor
      · intro s' heq
        cases heq
      · intro u hu
        exact absurd (Subst.unifies_iff_solves.1 hu) (h u.image)

/-- Unification of two sequences settles the constraints between them. -/
theorem Ty.unifyMany_settles {lefts rights : List MonoTy}
    (h : lefts.length = rights.length) :
    Settles (Constraint.between lefts rights)
      {a | Constraint.MentionedIn (Constraint.between lefts rights) a}
      (unifyMany lefts rights) := by
  have hset : {a | Constraint.MentionedIn (Constraint.between lefts rights).reverse a} =
      {a | Constraint.MentionedIn (Constraint.between lefts rights) a} := by
    ext a
    simp [Constraint.MentionedIn]
  rw [unifyMany_eq_solve h, ← hset]
  refine (Constraint.solve_settles _).of_iff fun θ => ?_
  simp [Solves]

/-- The solver and unification of types and of sequences find most general unifiers. -/
theorem unification_finds_mostGeneral :
    (∀ C : List (Constraint Empty), FindsUnifier C (Constraint.solve C)) ∧
    (∀ l r : MonoTy, FindsUnifier [⟨l, r⟩] (l.unify r)) ∧
    (∀ lefts rights : List MonoTy, lefts.length = rights.length →
      FindsUnifier (Constraint.between lefts rights) (Ty.unifyMany lefts rights)) := by
  refine ⟨?_, ?_, ?_⟩
  · intro C
    exact (Constraint.solve_settles C).findsUnifier
  · intro l r
    exact (Ty.unify_settles l r).findsUnifier
  · intro lefts rights h
    exact (Ty.unifyMany_settles h).findsUnifier

/-- Types with a variable in both, whose image is completed by a later pair. -/
def lateLefts : List MonoTy :=
  [.var "a", .fn (.var "a") (.var "b")]

/-- The types to which they are to be equal. -/
def lateRights : List MonoTy :=
  [.list (.var "c"), .fn (.list .int) (.var "c")]

/-- The same types in two pairs. -/
def latePairs : MonoTy × MonoTy :=
  (.pair (.var "a") (.fn (.var "a") (.var "b")),
    .pair (.list (.var "c")) (.fn (.list .int) (.var "c")))

/-- The unifier of the two sequences. -/
def lateUnifier : Subst Empty :=
  .ofList [("b", .int), ("c", .int), ("a", .list .int)]

/-- A unifier in which the second pair reaches into the image that the first one gave. -/
theorem unification_finds_mostGeneral_late :
    lateLefts.length = lateRights.length ∧
      lateUnifier.Unifies (Constraint.between lateLefts lateRights) ∧
      ∃ s, Ty.unifyMany lateLefts lateRights = .ok s ∧
        s.IsMostGeneral fun u => u.Unifies (Constraint.between lateLefts lateRights) := by
  have hlength : lateLefts.length = lateRights.length := rfl
  have hunifies : lateUnifier.Unifies (Constraint.between lateLefts lateRights) := by
    unfold Subst.Unifies
    decide
  have hfinds := unification_finds_mostGeneral.2.2 lateLefts lateRights hlength
  obtain ⟨s, hs⟩ := hfinds.returns lateUnifier hunifies
  exact ⟨hlength, hunifies, s, hs, hfinds.mostGeneral s hs⟩

/-! ## Solved forms -/

namespace Subst

/-- A substitution over some variables is in solved form: the variables that it replaces are
gone from its images, and applying it twice is applying it once. -/
structure SolvedForm (s : Subst Empty) (V : Set String) : Prop extends ResolvedIn s V where
  /-- No variable is replaced by itself. -/
  not_self : ∀ a, s.get? a ≠ some (.var a)
  /-- A second application changes nothing. -/
  idempotent : ∀ t : MonoTy, (t.apply s).apply s = t.apply s

theorem ResolvedIn.not_self {s : Subst Empty} {V : Set String} (h : s.ResolvedIn V)
    (a : String) : s.get? a ≠ some (.var a) := by
  intro hget
  have hnone : s.get? a = none := h.image_unbound hget (by simp)
  rw [hnone] at hget
  cases hget

/-- A resolved substitution does its own work already. -/
theorem ResolvedIn.absorbedBy_image {s : Subst Empty} {V : Set String} (h : s.ResolvedIn V) :
    s.AbsorbedBy s.image := by
  intro a
  have hfixed : ∀ b ∈ (s.image a).freeVars, s.image b = .var b := by
    intro b hb
    exact image_of_get?_eq_none (h.get?_of_mem_image hb)
  calc (s.image a).inst s.image
      = (s.image a).inst .var := Ty.inst_congr hfixed
    _ = s.image a := Ty.inst_self _

/-- A resolved substitution is in solved form. -/
theorem ResolvedIn.solvedForm {s : Subst Empty} {V : Set String} (h : s.ResolvedIn V) :
    s.SolvedForm V where
  toResolvedIn := h
  not_self := h.not_self
  idempotent t := h.absorbedBy_image.apply_apply t

end Subst

theorem Ty.length_eq_of_unifyMany {lefts rights : List MonoTy} {s : Subst Empty}
    (h : unifyMany lefts rights = .ok s) : lefts.length = rights.length := by
  unfold unifyMany at h
  by_cases hlength : lefts.length = rights.length
  · exact hlength
  · rw [if_neg hlength] at h
    cases h

/-- The constraints between two sequences mention variables of the sequences only. -/
theorem Constraint.exists_mem_of_mentionedIn_between {lefts rights : List MonoTy} {a : String}
    (h : MentionedIn (between lefts rights) a) : ∃ t ∈ lefts ++ rights, a ∈ t.freeVars := by
  obtain ⟨c, hc, ha⟩ := h
  rw [between_eq_map_zip] at hc
  obtain ⟨p, hp, rfl⟩ := List.mem_map.1 hc
  have hmem : p.1 ∈ lefts ∧ p.2 ∈ rights := List.of_mem_zip hp
  cases ha with
  | inl h => exact ⟨p.1, List.mem_append_left _ hmem.1, h⟩
  | inr h => exact ⟨p.2, List.mem_append_right _ hmem.2, h⟩

/-- The solver and unification of types and of sequences return solved forms, over the
variables that they were given. -/
theorem unification_solvedForm :
    (∀ (C : List (Constraint Empty)) (s : Subst Empty), Constraint.solve C = .ok s →
      s.SolvedForm {a | Constraint.MentionedIn C a}) ∧
    (∀ (l r : MonoTy) (s : Subst Empty), l.unify r = .ok s →
      s.SolvedForm {a | a ∈ l.freeVars ∨ a ∈ r.freeVars}) ∧
    (∀ (lefts rights : List MonoTy) (s : Subst Empty), Ty.unifyMany lefts rights = .ok s →
      s.SolvedForm {a | ∃ t ∈ lefts ++ rights, a ∈ t.freeVars}) := by
  refine ⟨?_, ?_, ?_⟩
  · intro C s h
    exact ((Constraint.solve_settles C).resolvedIn h).solvedForm
  · intro l r s h
    exact ((Ty.unify_settles l r).resolvedIn h).solvedForm
  · intro lefts rights s h
    have hresolved := (Ty.unifyMany_settles (Ty.length_eq_of_unifyMany h)).resolvedIn h
    refine (hresolved.mono fun a ha => ?_).solvedForm
    exact Constraint.exists_mem_of_mentionedIn_between ha

/-- The solved form in which the first image was completed later, from the constraints between
the sequences, from pairs of their types and from the sequences. -/
theorem unification_solvedForm_late :
    (Constraint.solve (Constraint.between lateLefts lateRights).reverse = .ok lateUnifier ∧
      lateUnifier.SolvedForm
        {a | Constraint.MentionedIn (Constraint.between lateLefts lateRights).reverse a}) ∧
    (latePairs.1.unify latePairs.2 = .ok lateUnifier ∧
      lateUnifier.SolvedForm {a | a ∈ latePairs.1.freeVars ∨ a ∈ latePairs.2.freeVars}) ∧
    (Ty.unifyMany lateLefts lateRights = .ok lateUnifier ∧
      lateUnifier.SolvedForm {a | ∃ t ∈ lateLefts ++ lateRights, a ∈ t.freeVars}) := by
  have hsolve : Constraint.solve (Constraint.between lateLefts lateRights).reverse =
      .ok lateUnifier := rfl
  have hunify : latePairs.1.unify latePairs.2 = .ok lateUnifier := rfl
  have hunifyMany : Ty.unifyMany lateLefts lateRights = .ok lateUnifier := rfl
  obtain ⟨hconstraints, htypes, hsequences⟩ := unification_solvedForm
  exact ⟨⟨hsolve, hconstraints _ _ hsolve⟩, ⟨hunify, htypes _ _ _ hunify⟩,
    ⟨hunifyMany, hsequences _ _ _ hunifyMany⟩⟩

end LetPoly
