import LetPoly.Proofs.Unification.Recursion
import LetPoly.Proofs.Unification.Solutions

/-!
# Where unification fails

When the solver fails it reports two types, and they stand in the constraints it was given:
at one position of the two sides of one constraint, under the most general substitution that
solves the constraints behind it and makes its sides agree to the left of the position.

The recursion goes from left to right, and each error is met by the rule at the end of one
branch.  So the position is found from there upwards: a failing part is a failing position in
the whole, and what was solved before is composed in.

Main results:

- Theorem {lit}`Ty.agreeLeftOf_cons`: agreement to the left of a position, one step down.
- Theorem {lit}`Constraint.FailsAt.ofPart`: a failing part of two types fails in the types.
- Theorem {lit}`Constraint.FailsAt.under`: a failure under a most general solution is a
  failure behind what it solves.
- Theorem {lit}`Call.Ends.failsInside`: every failing call fails at a position in its input.
- Theorem {lit}`Constraint.solve_error_stemsFrom`: so does the solver.
-/

namespace LetPoly

/-! ## Positions in types -/

/-- A position in a type: which part to go to, again and again. -/
abbrev Position :=
  List Nat

/-- A position is to the left of another one when the ways to them part, and the first one
goes to an earlier part. -/
inductive Position.LeftOf : Position → Position → Prop where
  | apart {i j : Nat} (h : i < j) (p q : Position) : LeftOf (i :: p) (j :: q)
  | along (i : Nat) {p q : Position} (h : LeftOf p q) : LeftOf (i :: p) (i :: q)

namespace Ty

/-- The parts of a type from left to right. -/
def parts : MonoTy → List MonoTy
  | fn argument result => [argument, result]
  | list element => [element]
  | pair first second => [first, second]
  | _ => []

/-- The type at a position. -/
def at? : MonoTy → Position → Option MonoTy
  | t, [] => some t
  | t, i :: p => t.parts[i]?.bind fun part => part.at? p

/-- A position in a part is a position in the whole. -/
theorem at?_of_parts {t part : MonoTy} {i : Nat} {p : Position}
    (h : t.parts[i]? = some part) : t.at? (i :: p) = part.at? p := by
  rw [at?, h, Option.bind_some]

/-- Two types agree to the left of a position. -/
def AgreeLeftOf (p : Position) (t u : MonoTy) : Prop :=
  ∀ q : Position, q.LeftOf p → t.at? q = u.at? q

theorem parts_inst {t : MonoTy} (h : t.outermost ≠ .var) (θ : Assignment) :
    (t.inst θ).parts = t.parts.map (inst θ) := by
  cases t with
  | quantified mark _ _ => exact mark.elim
  | var a => exact absurd rfl h
  | _ => rfl

/-- Nothing is to the left of the whole type. -/
theorem agreeLeftOf_nil (t u : MonoTy) : AgreeLeftOf [] t u := by
  intro q hq
  cases hq

/-- Agreement to the left of a position in a part: all earlier parts are equal, and the parts
agree to the left of the position. -/
theorem agreeLeftOf_cons {i : Nat} {p : Position} {t u t' u' : MonoTy}
    (ht : t.parts[i]? = some t') (hu : u.parts[i]? = some u') :
    AgreeLeftOf (i :: p) t u ↔ t.parts.take i = u.parts.take i ∧ AgreeLeftOf p t' u' := by
  constructor
  · intro h
    constructor
    · apply List.ext_getElem?
      intro j
      rw [List.getElem?_take, List.getElem?_take]
      by_cases hj : j < i
      · have hagree := h [j] (.apart hj [] p)
        simpa [at?, hj] using hagree
      · simp [hj]
    · intro q hq
      have hagree := h (i :: q) (.along i hq)
      rwa [at?_of_parts ht, at?_of_parts hu] at hagree
  · rintro ⟨htake, hpart⟩ q hq
    cases hq with
    | @apart j _ hj q _ =>
        have hsame := congrArg (fun parts : List MonoTy => parts[j]?) htake
        simp only [List.getElem?_take, if_pos hj] at hsame
        rw [at?, at?, hsame]
    | along _ hq =>
        rw [at?_of_parts ht, at?_of_parts hu]
        exact hpart _ hq

end Ty

/-! ## Failing positions -/

/-- An error reports two types: they clash, or one of them is a variable that occurs inside
the other one. -/
inductive CheckError.Reports : CheckError Empty → MonoTy → MonoTy → Prop where
  | clash {l r : MonoTy} (h : l.Clashes r) : Reports (.rejected (.clash l r)) l r
  | left {v : String} {t : MonoTy} (h : v ∈ t.freeVars) (hne : t ≠ .var v) :
      Reports (.rejected (.infinite v t)) (.var v) t
  | right {v : String} {t : MonoTy} (h : v ∈ t.freeVars) (hne : t ≠ .var v) :
      Reports (.rejected (.infinite v t)) t (.var v)

theorem Ty.reports_of_bindVar {v : String} {t : MonoTy} {error : CheckError Empty}
    (h : bindVar v t = .error error) : v ∈ t.freeVars ∧ t ≠ .var v ∧
      error = .rejected (.infinite v t) := by
  unfold bindVar at h
  split_ifs at h with hself hocc
  cases h
  exact ⟨hocc, hself, rfl⟩

namespace Constraint

/-- An assignment solves constraints, and one more up to a position. -/
def SolvedUpTo (earlier : List (Constraint Empty)) (c : Constraint Empty) (p : Position)
    (θ : Assignment) : Prop :=
  Solves θ earlier ∧ Ty.AgreeLeftOf p (c.left.inst θ) (c.right.inst θ)

/-- Solving a constraint behind earlier ones fails at a position, under a substitution that
is the most general one up to there. -/
structure FailsAt (c : Constraint Empty) (earlier : List (Constraint Empty)) (p : Position)
    (s : Subst Empty) (error : CheckError Empty) : Prop where
  /-- The error reports what stands at the position. -/
  reports : ∃ l r, (c.apply s).left.at? p = some l ∧ (c.apply s).right.at? p = some r ∧
    error.Reports l r
  /-- The substitution solves all up to the position. -/
  reached : SolvedUpTo earlier c p s.image
  /-- Every assignment that does so factors through it. -/
  absorbed : ∀ {θ}, SolvedUpTo earlier c p θ → s.AbsorbedBy θ

/-- Two types that are reported as they are. -/
theorem failsAt_nil {l r : MonoTy} {error : CheckError Empty} (h : error.Reports l r) :
    FailsAt ⟨l, r⟩ [] [] ∅ error where
  reports := ⟨l, r, by simp [apply, Ty.at?], by simp [apply, Ty.at?], h⟩
  reached := ⟨solves_nil _, Ty.agreeLeftOf_nil _ _⟩
  absorbed _ := fun _ => rfl

theorem solves_between {θ : Assignment} {lefts rights : List MonoTy}
    (h : lefts.length = rights.length) :
    Solves θ (between lefts rights) ↔ lefts.map (Ty.inst θ) = rights.map (Ty.inst θ) := by
  induction lefts generalizing rights with
  | nil =>
      cases rights with
      | nil => simp [between]
      | cons r rights => simp at h
  | cons l lefts ih =>
      cases rights with
      | nil => simp at h
      | cons r rights =>
          have hrest : lefts.length = rights.length := by simpa using h
          rw [List.map_cons, List.map_cons, List.cons.injEq, ← ih hrest]
          exact solves_cons

/-- A failing part of two types, behind the parts before it, fails in the types. -/
theorem FailsAt.ofPart {l r : MonoTy} {c : Constraint Empty}
    {earlier later : List (Constraint Empty)} {p : Position} {s : Subst Empty}
    {error : CheckError Empty} (h : c.FailsAt earlier p s error) (hl : l.outermost ≠ .var)
    (hr : r.outermost ≠ .var) (hparts : between l.parts r.parts = earlier ++ c :: later) :
    FailsAt ⟨l, r⟩ [] (earlier.length :: p) s error := by
  obtain ⟨ls, ls', rs, rs', hlength, hls, hrs, hearlier, hrest⟩ :=
    List.zipWith_eq_append_iff.1 hparts
  obtain ⟨a, ls'', b, rs'', rfl, rfl, rfl, -⟩ := List.zipWith_eq_cons_iff.1 hrest.symm
  change earlier = between ls rs at hearlier
  have hcount : earlier.length = ls.length := by simp [hearlier, between, hlength]
  -- under every assignment the parts are the ones before, the failing one and the ones behind
  have hleft : ∀ θ, (l.inst θ).parts = ls.map (Ty.inst θ) ++ (a :: ls'').map (Ty.inst θ) := by
    intro θ
    rw [Ty.parts_inst hl, hls, List.map_append]
  have hright : ∀ θ, (r.inst θ).parts = rs.map (Ty.inst θ) ++ (b :: rs'').map (Ty.inst θ) := by
    intro θ
    rw [Ty.parts_inst hr, hrs, List.map_append]
  have hpartLeft : ∀ θ, (l.inst θ).parts[earlier.length]? = some (a.inst θ) := by
    intro θ
    simp [hleft, hcount]
  have hpartRight : ∀ θ, (r.inst θ).parts[earlier.length]? = some (b.inst θ) := by
    intro θ
    simp [hright, hcount, hlength]
  have hupto : ∀ θ, SolvedUpTo [] ⟨l, r⟩ (earlier.length :: p) θ ↔
      SolvedUpTo earlier ⟨a, b⟩ p θ := by
    intro θ
    have htakeLeft : (l.inst θ).parts.take earlier.length = ls.map (Ty.inst θ) := by
      rw [hleft]
      exact List.take_left' (by simp [hcount])
    have htakeRight : (r.inst θ).parts.take earlier.length = rs.map (Ty.inst θ) := by
      rw [hright]
      exact List.take_left' (by simp [hcount, hlength])
    unfold SolvedUpTo
    rw [Ty.agreeLeftOf_cons (hpartLeft θ) (hpartRight θ), htakeLeft, htakeRight,
      ← solves_between hlength, ← hearlier]
    simp
  obtain ⟨t, u, ht, hu, hreports⟩ := h.reports
  refine ⟨⟨t, u, ?_, ?_, hreports⟩, (hupto _).2 h.reached, fun hθ => h.absorbed ((hupto _).1 hθ)⟩
  · rw [← ht]
    simp only [apply, Ty.apply_eq_inst]
    exact Ty.at?_of_parts (hpartLeft s.image)
  · rw [← hu]
    simp only [apply, Ty.apply_eq_inst]
    exact Ty.at?_of_parts (hpartRight s.image)

/-- Solving under a substitution is solving by what it does first. -/
theorem solvedUpTo_apply {earlier : List (Constraint Empty)} {c : Constraint Empty}
    {p : Position} {s : Subst Empty} {θ : Assignment} :
    SolvedUpTo (earlier.map fun c => c.apply s) (c.apply s) p θ ↔
      SolvedUpTo earlier c p fun a => (s.image a).inst θ := by
  simp only [SolvedUpTo, Solves, apply, List.forall_mem_map, Ty.apply_eq_inst, Ty.inst_inst]

/-- A failure under a most general solution of some constraints is a failure behind these
constraints. -/
theorem FailsAt.under {c : Constraint Empty} {D E earlier : List (Constraint Empty)}
    {V : Set String} {p : Position} {s₁ s₂ : Subst Empty} {error : CheckError Empty}
    (h : (c.apply s₁).FailsAt (earlier.map fun c => c.apply s₁) p s₂ error)
    (hD : MostGeneral D V s₁) (hE : ∀ θ, Solves θ E ↔ Solves θ D ∧ Solves θ earlier) :
    c.FailsAt E p (Subst.compose s₂ s₁) error := by
  have hupto : ∀ θ, SolvedUpTo E c p θ ↔ Solves θ D ∧ SolvedUpTo earlier c p θ := by
    intro θ
    unfold SolvedUpTo
    rw [hE, and_assoc]
  have himage : (Subst.compose s₂ s₁).image = fun a => (s₁.image a).inst s₂.image := by
    ext a
    rw [Subst.image_compose]
  refine ⟨?_, ?_, ?_⟩
  · rw [apply_compose]
    exact h.reports
  · rw [hupto, himage]
    exact ⟨hD.solves.comp _, solvedUpTo_apply.1 h.reached⟩
  · intro θ hθ
    obtain ⟨hθD, hθc⟩ := (hupto θ).1 hθ
    have habsorbed := hD.absorbed hθD
    have hsame : (fun a => (s₁.image a).inst θ) = θ := by
      ext a
      exact habsorbed a
    refine habsorbed.compose (h.absorbed (solvedUpTo_apply.2 ?_))
    rw [hsame]
    exact hθc

end Constraint

/-! ## Failing calls -/

namespace Call

open Constraint (FailsAt)

/-- A failing call fails at a position in its input: in the two types, in a pair of the
sequences behind the pairs before it, or in a constraint that waits, behind those that are
solved before it. -/
def FailsInside : Call → CheckError Empty → Prop
  | types l r, error => ∃ p s, FailsAt ⟨l, r⟩ [] p s error
  | sequences lefts rights, error => lefts.length = rights.length →
      ∃ earlier c later p s, Constraint.between lefts rights = earlier ++ c :: later ∧
        FailsAt c earlier p s error
  | waiting C _, error => ∃ before c after p s, C = before ++ c :: after ∧
      FailsAt c after p s error

theorem FailsInside.ofParts {l r : MonoTy} {error : CheckError Empty}
    (h : (sequences l.parts r.parts).FailsInside error) (hl : l.outermost ≠ .var)
    (hr : r.outermost ≠ .var) (hlength : l.parts.length = r.parts.length) :
    (types l r).FailsInside error := by
  obtain ⟨earlier, c, later, p, s, hparts, hfails⟩ := h hlength
  exact ⟨_, s, hfails.ofPart hl hr hparts⟩

theorem Ends.mostGeneral {l r : MonoTy} {s : Subst Empty} (h : Ends (types l r) (.ok s)) :
    MostGeneral [⟨l, r⟩] {a | a ∈ l.freeVars ∨ a ∈ r.freeVars} s := by
  have hsettles := Ty.unify_settles l r
  rw [show l.unify r = _ from h.outcome_eq] at hsettles
  exact hsettles

/-- A failure in constraints to which a substitution was applied. -/
theorem exists_split_of_map {C before after : List (Constraint Empty)} {c : Constraint Empty}
    {s : Subst Empty} (h : (C.map fun c => c.apply s) = before ++ c :: after) :
    ∃ before' c' after', C = before' ++ c' :: after' ∧
      (before'.map fun c => c.apply s) = before ∧ c'.apply s = c ∧
      (after'.map fun c => c.apply s) = after := by
  obtain ⟨before', rest, rfl, hbefore, hrest⟩ := List.map_eq_append_iff.1 h
  obtain ⟨c', after', rfl, hc, hafter⟩ := List.map_eq_cons_iff.1 hrest
  exact ⟨before', c', after', rfl, hbefore, hc, hafter⟩

/-- Every failing call fails at a position in its input. -/
theorem Ends.failsInside {call : Call} {outcome : Checked Empty (Subst Empty)}
    (h : call.Ends outcome) {error : CheckError Empty} (herror : outcome = .error error) :
    call.FailsInside error := by
  induction h with
  | same t => cases herror
  | left v h =>
      obtain ⟨hocc, hne, rfl⟩ := Ty.reports_of_bindVar herror
      exact ⟨[], ∅, Constraint.failsAt_nil (.left hocc hne)⟩
  | right v h =>
      obtain ⟨hocc, hne, rfl⟩ := Ty.reports_of_bindVar herror
      exact ⟨[], ∅, Constraint.failsAt_nil (.right hocc hne)⟩
  | fn h _ ih =>
      exact FailsInside.ofParts (l := .fn _ _) (r := .fn _ _) (ih herror)
        (by simp [Ty.outermost]) (by simp [Ty.outermost]) rfl
  | list h _ ih =>
      exact FailsInside.ofParts (l := .list _) (r := .list _) (ih herror)
        (by simp [Ty.outermost]) (by simp [Ty.outermost]) rfl
  | pair h _ ih =>
      exact FailsInside.ofParts (l := .pair _ _) (r := .pair _ _) (ih herror)
        (by simp [Ty.outermost]) (by simp [Ty.outermost]) rfl
  | clash h =>
      cases herror
      exact ⟨[], ∅, Constraint.failsAt_nil (.clash h)⟩
  | lengths h =>
      intro hlength
      exact absurd hlength h
  | nil => cases herror
  | @head l r lefts rights _ h _ ih =>
      cases herror
      intro _
      obtain ⟨p, s, hfails⟩ := ih rfl
      exact ⟨[], ⟨l, r⟩, Constraint.between lefts rights, p, s, rfl, hfails⟩
  | @tail l r lefts rights s outcome h hfirst _ _ ih =>
      intro _
      have hrest : outcome = .error error := by
        cases outcome with
        | error _ => exact herror
        | ok s' => cases herror
      obtain ⟨earlier, c, later, p, s', hsplit, hfails⟩ := ih hrest (by simp [h])
      rw [Constraint.between_map_apply] at hsplit
      obtain ⟨earlier', c', later', hpairs, rfl, rfl, rfl⟩ := exists_split_of_map hsplit
      refine ⟨⟨l, r⟩ :: earlier', c', later', p, Subst.compose s' s, ?_, ?_⟩
      · exact congrArg (⟨l, r⟩ :: ·) hpairs
      · exact hfails.under hfirst.mostGeneral fun θ => by simp
  | done solved => cases herror
  | @stop C c _ _ _ ih =>
      cases herror
      obtain ⟨p, s, hfails⟩ := ih rfl
      exact ⟨C, c, [], p, s, rfl, hfails⟩
  | @goOn C c _ s outcome hlast _ _ ih =>
      obtain ⟨before, k, after, p, s', hsplit, hfails⟩ := ih herror
      obtain ⟨before', k', after', rfl, rfl, rfl, rfl⟩ := exists_split_of_map hsplit
      refine ⟨before', k', after' ++ [c], p, Subst.compose s' s, by simp, ?_⟩
      exact hfails.under hlast.mostGeneral fun θ => by simp [and_comm]

end Call

/-! ## The failing position of the solver -/

/-- An error stems from constraints: it reports what stands at a position of the two sides of
one of them, under the most general substitution that unifies the constraints behind it and
makes its sides agree to the left of the position. -/
def CheckError.StemsFrom (error : CheckError Empty) (C : List (Constraint Empty)) : Prop :=
  ∃ before c after, C = before ++ c :: after ∧
    ∃ (p : Position) (s : Subst Empty) (l r : MonoTy),
      (c.left.apply s).at? p = some l ∧ (c.right.apply s).at? p = some r ∧
      error.Reports l r ∧
      s.IsMostGeneral fun u =>
        u.Unifies after ∧ Ty.AgreeLeftOf p (c.left.apply u) (c.right.apply u)

namespace Constraint

theorem solvedUpTo_image_iff {earlier : List (Constraint Empty)} {c : Constraint Empty}
    {p : Position} {u : Subst Empty} :
    SolvedUpTo earlier c p u.image ↔
      u.Unifies earlier ∧ Ty.AgreeLeftOf p (c.left.apply u) (c.right.apply u) := by
  rw [SolvedUpTo, Subst.unifies_iff_solves, Ty.apply_eq_inst, Ty.apply_eq_inst]

/-- A failing run of the solver fails at a position of a constraint, behind the constraints
after it. -/
theorem exists_failsAt_of_solve {C : List (Constraint Empty)} {error : CheckError Empty}
    (h : solve C = .error error) :
    ∃ before c after p s, C = before ++ c :: after ∧ FailsAt c after p s error := by
  have hends : (Call.waiting C ∅).Ends (.error error) := Call.ends_waiting_iff.2 h.symm
  exact hends.failsInside rfl

/-- A failed run of the solver reports a clash, or a variable inside a type, that stems from
the constraints. -/
theorem solve_error_stemsFrom {C : List (Constraint Empty)} {error : CheckError Empty}
    (h : solve C = .error error) : error.StemsFrom C := by
  obtain ⟨before, c, after, p, s, hC, hfails⟩ := exists_failsAt_of_solve h
  obtain ⟨l, r, hl, hr, hreports⟩ := hfails.reports
  refine ⟨before, c, after, hC, p, s, l, r, hl, hr, hreports, ?_, ?_⟩
  · exact solvedUpTo_image_iff.1 hfails.reached
  · intro u hu t
    exact (hfails.absorbed (solvedUpTo_image_iff.2 hu)).apply_apply t

end Constraint

/-- Constraints of which the last one is solved and the first one fails in the result of its
result, after a variable on the left was replaced by a function type. -/
def lateClash : List (Constraint Empty) :=
  [⟨.fn (.var "a") (.var "a"), .fn (.fn (.var "b") (.var "b")) (.fn .int (.var "c"))⟩,
    ⟨.var "c", .bool⟩]

/-- A clash of two base types that are put in by three different unifiers. -/
theorem Constraint.solve_error_stemsFrom_lateClash :
    solve lateClash = .error (.rejected (.clash .int .bool)) ∧
      CheckError.StemsFrom (.rejected (.clash .int .bool)) lateClash := by
  have hsolve : solve lateClash = .error (.rejected (.clash .int .bool)) := rfl
  exact ⟨hsolve, solve_error_stemsFrom hsolve⟩

end LetPoly
