import LetPoly.Proofs.Unification.Parts
import LetPoly.Proofs.Unification.Rounds

/-!
# The recursion of unification

Unification of two types asks for unification of two sequences of types, which asks for
unification of types again, with a unifier applied to what is left.  The solver is a loop
around it.  Neither the recursion nor the loop has a bound of its own: here they are written
down as rules, and it is shown that every call comes to an end.  Each call that is made on
the way has fewer variables than the call that makes it, or no more variables and less to
look at.

Main results:

- Theorems {lit}`Ty.unify_fn`, {lit}`Ty.unify_list` and {lit}`Ty.unify_pair`: unification of
  composite types is unification of the sequences of their parts.
- Theorem {lit}`Call.Ends.outcome_eq`: the rules give no outcome but that of the unifier.
- Theorem {lit}`Call.wellFounded_requires`: there is no endless descent of calls.
- Theorem {lit}`Call.recursion_ends`: every call ends, with the outcome of the unifier.
-/

namespace LetPoly

/-! ## Unification of types through their parts -/

namespace Ty

/-- A variable on the left is bound. -/
theorem unify_var_left {v : String} {t : MonoTy} (h : var v ≠ t) :
    (var v).unify t = bindVar v t := by
  rw [unify_eq_unifyRound, unifyRound_var_left h]

/-- A variable on the right is bound if there is none on the left. -/
theorem unify_var_right {v : String} {t : MonoTy} (h : t.outermost ≠ .var) :
    t.unify (var v) = bindVar v t := by
  rw [unify_eq_unifyRound]
  exact (RoundView.right v h).unifyRound_eq

/-- Types that clash are reported as they are. -/
theorem Clashes.unify_eq {l r : MonoTy} (h : l.Clashes r) :
    l.unify r = .error (.rejected (.clash l r)) := by
  rw [unify_eq_unifyRound, h.unifyRound_eq]

/-- One pair of types is unified alone. -/
theorem unifyMany_singleton (l r : MonoTy) : unifyMany [l] [r] = l.unify r := by
  have hlength : [l].length = [r].length := rfl
  rw [unifyMany_eq_solve hlength]
  exact Constraint.solve_singleton ⟨l, r⟩

/-- Unification goes on to the second parts under the unifier of the first ones, empty or
not. -/
theorem unifySecond_unify (b d : MonoTy) (s : Subst Empty) :
    unifySecond unify b d s = (b.apply s).unify (d.apply s) := by
  unfold unifySecond
  by_cases hempty : s.isEmpty
  · have hs : s = ∅ := Bindings.ext_entries (List.isEmpty_iff.1 hempty)
    rw [if_pos hempty, ← unify_eq_unifyRound, hs, apply_empty, apply_empty]
  · rw [if_neg hempty]

/-- Both parts are unified one after the other, the second ones after what the first ones need. -/
theorem unifyParts_unify (a b c d : MonoTy) :
    unifyParts unify a b c d = unifyMany [a, b] [c, d] := by
  have hlength : [b].length = [d].length := rfl
  unfold unifyParts
  rw [← unify_eq_unifyRound, unifyMany_cons hlength]
  refine bind_congr fun s => ?_
  rw [unifySecond_unify, List.map_singleton, List.map_singleton, unifyMany_singleton]

/-- Two function types are unified through their arguments and results. -/
theorem unify_fn {a b c d : MonoTy} (h : fn a b ≠ fn c d) :
    (fn a b).unify (fn c d) = unifyMany [a, b] [c, d] := by
  rw [unify_eq_unifyRound, unifyRound_fn h, unifyParts_unify]

/-- Two list types are unified through their elements. -/
theorem unify_list {a c : MonoTy} (h : list a ≠ list c) :
    (list a).unify (list c) = unifyMany [a] [c] := by
  rw [unify_eq_unifyRound, unifyRound_list h, ← unify_eq_unifyRound, unifyMany_singleton]

/-- Two pair types are unified through their components. -/
theorem unify_pair {a b c d : MonoTy} (h : pair a b ≠ pair c d) :
    (pair a b).unify (pair c d) = unifyMany [a, b] [c, d] := by
  rw [unify_eq_unifyRound, unifyRound_pair h, unifyParts_unify]

end Ty

/-! ## Calls and their rules -/

/-- A call in the recursion: two types, two sequences of types, or the constraints that wait
in the loop of the solver behind what is solved. -/
inductive Call where
  | types (left right : MonoTy)
  | sequences (lefts rights : List MonoTy)
  | waiting (constraints : List (Constraint Empty)) (solved : Subst Empty)

namespace Call

/-- A call ends with an outcome.  There is a rule for each way through the recursion, and a
call that never came to an end would have no outcome. -/
inductive Ends : Call → Checked Empty (Subst Empty) → Prop where
  /-- Equal types need no substitution. -/
  | same (t : MonoTy) : Ends (types t t) (.ok ∅)
  /-- A variable on the left is bound. -/
  | left (v : String) {t : MonoTy} (h : .var v ≠ t) :
      Ends (types (.var v) t) (Ty.bindVar v t)
  /-- A variable on the right is bound. -/
  | right (v : String) {t : MonoTy} (h : t.outermost ≠ .var) :
      Ends (types t (.var v)) (Ty.bindVar v t)
  /-- Function types call for arguments and results. -/
  | fn {a b c d : MonoTy} {outcome : Checked Empty (Subst Empty)}
      (h : Ty.fn a b ≠ Ty.fn c d) (hparts : Ends (sequences [a, b] [c, d]) outcome) :
      Ends (types (.fn a b) (.fn c d)) outcome
  /-- List types call for elements. -/
  | list {a c : MonoTy} {outcome : Checked Empty (Subst Empty)}
      (h : Ty.list a ≠ Ty.list c) (hparts : Ends (sequences [a] [c]) outcome) :
      Ends (types (.list a) (.list c)) outcome
  /-- Pair types call for components. -/
  | pair {a b c d : MonoTy} {outcome : Checked Empty (Subst Empty)}
      (h : Ty.pair a b ≠ Ty.pair c d) (hparts : Ends (sequences [a, b] [c, d]) outcome) :
      Ends (types (.pair a b) (.pair c d)) outcome
  /-- Types that are built differently clash. -/
  | clash {l r : MonoTy} (h : l.Clashes r) :
      Ends (types l r) (.error (.rejected (.clash l r)))
  /-- Sequences of different lengths are refused. -/
  | lengths {lefts rights : List MonoTy} (h : lefts.length ≠ rights.length) :
      Ends (sequences lefts rights) (.error (.rejected (.lengths lefts rights)))
  /-- Nothing is left of the sequences. -/
  | nil : Ends (sequences [] []) (.ok ∅)
  /-- The first pair fails. -/
  | head {l r : MonoTy} {lefts rights : List MonoTy} {error : CheckError Empty}
      (h : lefts.length = rights.length) (hfirst : Ends (types l r) (.error error)) :
      Ends (sequences (l :: lefts) (r :: rights)) (.error error)
  /-- The unifier of the first pair is applied to the others. -/
  | tail {l r : MonoTy} {lefts rights : List MonoTy} {s : Subst Empty}
      {outcome : Checked Empty (Subst Empty)} (h : lefts.length = rights.length)
      (hfirst : Ends (types l r) (.ok s))
      (hrest : Ends (sequences (lefts.map fun t => t.apply s) (rights.map fun t => t.apply s))
        outcome) :
      Ends (sequences (l :: lefts) (r :: rights)) (do return Subst.compose (← outcome) s)
  /-- No constraint waits any more. -/
  | done (solved : Subst Empty) : Ends (waiting [] solved) (.ok solved)
  /-- The last constraint fails. -/
  | stop {C : List (Constraint Empty)} {c : Constraint Empty} {solved : Subst Empty}
      {error : CheckError Empty} (hlast : Ends (types c.left c.right) (.error error)) :
      Ends (waiting (C ++ [c]) solved) (.error error)
  /-- The unifier of the last constraint is applied to the others and to what is solved. -/
  | goOn {C : List (Constraint Empty)} {c : Constraint Empty} {solved s : Subst Empty}
      {outcome : Checked Empty (Subst Empty)} (hlast : Ends (types c.left c.right) (.ok s))
      (hrest : Ends (waiting (C.map fun c => c.apply s) (Subst.compose s solved)) outcome) :
      Ends (waiting (C ++ [c]) solved) outcome

/-- What the unifier and the solver answer to a call. -/
def outcome : Call → Checked Empty (Subst Empty)
  | types left right => left.unify right
  | sequences lefts rights => Ty.unifyMany lefts rights
  | waiting constraints solved => do
      return Subst.compose (← Constraint.solve constraints) solved

/-- The last constraint is solved first, and its solution is applied to those that wait. -/
theorem outcome_waiting_concat (C : List (Constraint Empty)) (c : Constraint Empty)
    (solved : Subst Empty) :
    (waiting (C ++ [c]) solved).outcome = (do
      let s ← (types c.left c.right).outcome
      (waiting (C.map fun c => c.apply s) (Subst.compose s solved)).outcome) := by
  simp only [outcome, Constraint.solve_concat]
  cases c.left.unify c.right with
  | error error => rfl
  | ok s =>
      simp only [Bind.bind, Except.bind]
      cases Constraint.solve (C.map fun c => c.apply s) with
      | error error => rfl
      | ok s' => exact congrArg Except.ok (Subst.compose_assoc s' s solved).symm

/-- The rules give no outcome but that of the unifier. -/
theorem Ends.outcome_eq {call : Call} {outcome : Checked Empty (Subst Empty)}
    (h : call.Ends outcome) : call.outcome = outcome := by
  induction h with
  | same t => exact Ty.unify_self t
  | left v h => exact Ty.unify_var_left h
  | right v h => exact Ty.unify_var_right h
  | fn h _ ih => exact (Ty.unify_fn h).trans ih
  | list h _ ih => exact (Ty.unify_list h).trans ih
  | pair h _ ih => exact (Ty.unify_pair h).trans ih
  | clash h => exact h.unify_eq
  | lengths h => exact if_neg h
  | nil => rfl
  | head h _ ih =>
      simp only [Call.outcome] at ih ⊢
      rw [Ty.unifyMany_cons h, ih]
      rfl
  | tail h _ _ ihfirst ihrest =>
      simp only [Call.outcome] at ihfirst ihrest ⊢
      rw [Ty.unifyMany_cons h, ihfirst, ← ihrest]
      rfl
  | done solved => exact congrArg Except.ok (Subst.empty_compose solved)
  | stop _ ih =>
      rw [outcome_waiting_concat, ih]
      rfl
  | goOn _ _ ihlast ihrest =>
      rw [outcome_waiting_concat, ihlast]
      exact ihrest

/-! ## No endless descent -/

/-- A call is made on the way to the outcome of another one. -/
inductive Requires : Call → Call → Prop where
  | fn {a b c d : MonoTy} (h : Ty.fn a b ≠ Ty.fn c d) :
      Requires (sequences [a, b] [c, d]) (types (.fn a b) (.fn c d))
  | list {a c : MonoTy} (h : Ty.list a ≠ Ty.list c) :
      Requires (sequences [a] [c]) (types (.list a) (.list c))
  | pair {a b c d : MonoTy} (h : Ty.pair a b ≠ Ty.pair c d) :
      Requires (sequences [a, b] [c, d]) (types (.pair a b) (.pair c d))
  | head {l r : MonoTy} {lefts rights : List MonoTy} (h : lefts.length = rights.length) :
      Requires (types l r) (sequences (l :: lefts) (r :: rights))
  | tail {l r : MonoTy} {lefts rights : List MonoTy} {s : Subst Empty}
      (h : lefts.length = rights.length) (hfirst : Ends (types l r) (.ok s)) :
      Requires (sequences (lefts.map fun t => t.apply s) (rights.map fun t => t.apply s))
        (sequences (l :: lefts) (r :: rights))
  | last (C : List (Constraint Empty)) (c : Constraint Empty) (solved : Subst Empty) :
      Requires (types c.left c.right) (waiting (C ++ [c]) solved)
  | others {C : List (Constraint Empty)} {c : Constraint Empty} {solved s : Subst Empty}
      (hlast : Ends (types c.left c.right) (.ok s)) :
      Requires (waiting (C.map fun c => c.apply s) (Subst.compose s solved))
        (waiting (C ++ [c]) solved)

/-- The constraints that a call has to make true. -/
def constraints : Call → List (Constraint Empty)
  | types left right => [⟨left, right⟩]
  | sequences lefts rights => Constraint.between lefts rights
  | waiting constraints _ => constraints

end Call

/-- The number of constructors in a type. -/
def Ty.nodeCount : MonoTy → Nat
  | var _ => 1
  | con _ => 1
  | fn argument result => argument.nodeCount + result.nodeCount + 1
  | list element => element.nodeCount + 1
  | pair first second => first.nodeCount + second.nodeCount + 1
  | quantified mark _ _ => mark.elim

theorem Ty.nodeCount_pos (t : MonoTy) : 0 < t.nodeCount := by
  cases t with
  | quantified mark _ _ => exact mark.elim
  | _ => simp [nodeCount]

namespace Constraint

/-- How much there is to look at in constraints. -/
def totalSize : List (Constraint Empty) → Nat
  | [] => 0
  | c :: C => c.left.nodeCount + c.right.nodeCount + totalSize C

/-- The size of constraints is counted from the end as well. -/
theorem totalSize_concat (C : List (Constraint Empty)) (c : Constraint Empty) :
    totalSize (C ++ [c]) = c.left.nodeCount + c.right.nodeCount + totalSize C := by
  induction C with
  | nil => rfl
  | cons d C ih =>
      rw [List.cons_append, totalSize, totalSize, ih]
      omega

/-- The empty substitution changes no constraint. -/
theorem map_apply_empty (C : List (Constraint Empty)) : (C.map fun c => c.apply ∅) = C := by
  simp [apply]

/-- Behind a unifier with a binding, constraints over its variables have fewer variables. -/
theorem card_vars_map_apply_lt {C D : List (Constraint Empty)} {s : Subst Empty}
    (hs : s.ResolvedIn (vars C)) (hempty : ¬ s.isEmpty) (hD : vars D ⊆ vars C) :
    (vars (D.map fun c => c.apply s)).card < (vars C).card := by
  have hover : ∀ c ∈ D, c.left.Over (vars C) ∧ c.right.Over (vars C) := by
    intro c hc
    constructor
    · intro a ha
      exact hD (mem_vars.2 ⟨c, hc, Or.inl ha⟩)
    · intro a ha
      exact hD (mem_vars.2 ⟨c, hc, Or.inr ha⟩)
  have hsub : vars (D.map fun c => c.apply s) ⊆ (vars C).filter fun a => s.get? a = none := by
    intro a ha
    obtain ⟨c', hc', hmentions⟩ := mem_vars.1 ha
    obtain ⟨c, hc, rfl⟩ := List.mem_map.1 hc'
    obtain ⟨hleft, hright⟩ := hover c hc
    cases hmentions with
    | inl h => exact hleft.apply_filter hs a h
    | inr h => exact hright.apply_filter hs a h
  exact lt_of_le_of_lt (Finset.card_le_card hsub) (Ty.card_filter_lt_of_not_isEmpty hs hempty)

end Constraint

namespace Call

/-- What there is to look at in a call. -/
def weight : Call → Nat
  | types left right => left.nodeCount + right.nodeCount
  | sequences lefts rights => 1 + Constraint.totalSize (Constraint.between lefts rights)
  | waiting constraints _ => 1 + Constraint.totalSize constraints

/-- The variables of a call on two types. -/
theorem mem_vars_types {l r : MonoTy} {a : String} :
    a ∈ Constraint.vars (types l r).constraints ↔ a ∈ l.freeVars ∨ a ∈ r.freeVars := by
  simp [constraints, Constraint.Mentions]

/-- The variables of a call on sequences. -/
theorem mem_vars_sequences {l r : MonoTy} {lefts rights : List MonoTy} {a : String} :
    a ∈ Constraint.vars (sequences (l :: lefts) (r :: rights)).constraints ↔
      (a ∈ l.freeVars ∨ a ∈ r.freeVars) ∨
        a ∈ Constraint.vars (sequences lefts rights).constraints := by
  simp [constraints, Constraint.between, Constraint.Mentions]

theorem not_mem_vars_nil {a : String} :
    ¬ a ∈ Constraint.vars (sequences [] []).constraints := by
  simp [constraints, Constraint.between]

theorem weight_types (l r : MonoTy) : (types l r).weight = l.nodeCount + r.nodeCount :=
  rfl

theorem weight_nil : (sequences [] []).weight = 1 :=
  rfl

/-- Sequences weigh as much as their first types and the others. -/
theorem weight_sequences (l r : MonoTy) (lefts rights : List MonoTy) :
    (sequences (l :: lefts) (r :: rights)).weight =
      l.nodeCount + r.nodeCount + (sequences lefts rights).weight := by
  simp only [weight, Constraint.between, List.zipWith_cons_cons, Constraint.totalSize]
  omega

/-- What waits weighs as much as the constraint that is taken next and the others. -/
theorem weight_waiting_concat (C : List (Constraint Empty)) (c : Constraint Empty)
    (solved solved' : Subst Empty) :
    (waiting (C ++ [c]) solved).weight =
      (types c.left c.right).weight + (waiting C solved').weight := by
  rw [weight, weight, weight, Constraint.totalSize_concat]
  omega

/-- A call is below another one when it has fewer variables, or as many and less to look
at. -/
def Below (call call' : Call) : Prop :=
  Prod.Lex (· < ·) (· < ·) ((Constraint.vars call.constraints).card, call.weight)
    ((Constraint.vars call'.constraints).card, call'.weight)

/-- There is no endless descent of calls: the variables become fewer, or the weight does. -/
theorem wellFounded_below : WellFounded Below :=
  InvImage.wf _ (WellFounded.prod_lex Nat.lt_wfRel.wf Nat.lt_wfRel.wf)

/-- A call with no other variables and less to look at is below. -/
theorem below_of_weight {call call' : Call}
    (hvars : ∀ a ∈ Constraint.vars call.constraints, a ∈ Constraint.vars call'.constraints)
    (hweight : call.weight < call'.weight) : call.Below call' := by
  have hcard : _ ≤ _ := Finset.card_le_card hvars
  unfold Below
  rw [Prod.lex_def]
  rcases Nat.lt_or_eq_of_le hcard with h | h
  · exact Or.inl h
  · exact Or.inr ⟨h, hweight⟩

/-- A call for what is left behind the unifier of a constraint is below: either the unifier
removes a variable, or it is empty and the constraint is all that is gone. -/
theorem below_of_ends {call call' : Call} {c : Constraint Empty} {s : Subst Empty}
    {rest : List (Constraint Empty)} (hends : Ends (types c.left c.right) (.ok s))
    (hcall : call.constraints = rest.map fun c => c.apply s)
    (hcall' : Constraint.vars call'.constraints = Constraint.vars (c :: rest))
    (hweight : s = ∅ → call.weight < call'.weight) : call.Below call' := by
  have hsub : Constraint.vars rest ⊆ Constraint.vars (c :: rest) := by
    intro a ha
    rw [Constraint.mem_vars] at ha ⊢
    exact Constraint.mentionedIn_cons.2 (Or.inr ha)
  by_cases hempty : s.isEmpty
  · have hs : s = ∅ := Bindings.ext_entries (List.isEmpty_iff.1 hempty)
    refine below_of_weight ?_ (hweight hs)
    rw [hcall, hcall', hs, Constraint.map_apply_empty]
    exact hsub
  · have hresolved : s.ResolvedIn (Constraint.vars (c :: rest)) := by
      refine ((Ty.unify_settles c.left c.right).resolvedIn hends.outcome_eq).mono ?_
      intro a ha
      rw [Finset.mem_coe, Constraint.mem_vars]
      exact Constraint.mentionedIn_cons.2 (Or.inl ha)
    refine Prod.lex_def.2 (Or.inl ?_)
    rw [hcall, hcall']
    exact Constraint.card_vars_map_apply_lt hresolved hempty hsub

/-- A call that another one requires is below it. -/
theorem below_of_requires {call call' : Call} (h : Requires call call') :
    call.Below call' := by
  cases h with
  | fn h =>
      refine below_of_weight (fun x => ?_) ?_
      · simp only [mem_vars_types, mem_vars_sequences, not_mem_vars_nil, Ty.mem_freeVars_fn]
        tauto
      · simp only [weight_types, weight_sequences, weight_nil, Ty.nodeCount]
        omega
  | list h =>
      refine below_of_weight (fun x => ?_) ?_
      · simp only [mem_vars_types, mem_vars_sequences, not_mem_vars_nil, Ty.mem_freeVars_list]
        tauto
      · simp only [weight_types, weight_sequences, weight_nil, Ty.nodeCount]
        omega
  | pair h =>
      refine below_of_weight (fun x => ?_) ?_
      · simp only [mem_vars_types, mem_vars_sequences, not_mem_vars_nil, Ty.mem_freeVars_pair]
        tauto
      · simp only [weight_types, weight_sequences, weight_nil, Ty.nodeCount]
        omega
  | @head l r lefts rights h =>
      refine below_of_weight (fun x hx => ?_) ?_
      · exact mem_vars_sequences.2 (Or.inl (mem_vars_types.1 hx))
      · rw [weight_types, weight_sequences, weight]
        omega
  | @tail l r lefts rights s h hfirst =>
      refine below_of_ends (c := ⟨l, r⟩) hfirst (Constraint.between_map_apply _ _ s) rfl ?_
      intro hs
      have hl := l.nodeCount_pos
      rw [weight_sequences, hs]
      simp only [Ty.apply_empty, List.map_id']
      omega
  | last C c solved =>
      refine below_of_weight (fun x hx => ?_) ?_
      · simp only [constraints, Constraint.mem_vars, Constraint.mentionedIn_append] at hx ⊢
        exact Or.inr hx
      · rw [weight_waiting_concat C c solved solved, weight, weight]
        omega
  | @others C c solved s hlast =>
      have hvars : Constraint.vars (C ++ [c]) = Constraint.vars (c :: C) := by
        ext a
        simp only [Constraint.mem_vars, Constraint.mentionedIn_append,
          Constraint.mentionedIn_cons, Constraint.mentionedIn_nil]
        tauto
      refine below_of_ends (c := c) hlast rfl hvars ?_
      intro hs
      have hl := c.left.nodeCount_pos
      rw [hs, Constraint.map_apply_empty,
        weight_waiting_concat C c solved (Subst.compose ∅ solved), weight_types]
      omega

/-- There is no endless descent of calls. -/
theorem wellFounded_requires : WellFounded Requires :=
  Subrelation.wf below_of_requires wellFounded_below

/-- Every call comes to an end. -/
theorem exists_ends (call : Call) : ∃ outcome, call.Ends outcome := by
  induction call using wellFounded_requires.induction with
  | _ call ih =>
      cases call with
      | types l r =>
          obtain ⟨outcome, hview⟩ := Ty.exists_roundView Ty.unify l r
          cases hview with
          | same => exact ⟨_, .same l⟩
          | left v h => exact ⟨_, .left v h⟩
          | right v h => exact ⟨_, .right v h⟩
          | fn h =>
              obtain ⟨outcome, hparts⟩ := ih _ (.fn h)
              exact ⟨outcome, .fn h hparts⟩
          | list h =>
              obtain ⟨outcome, hparts⟩ := ih _ (.list h)
              exact ⟨outcome, .list h hparts⟩
          | pair h =>
              obtain ⟨outcome, hparts⟩ := ih _ (.pair h)
              exact ⟨outcome, .pair h hparts⟩
          | clash h => exact ⟨_, .clash h⟩
      | sequences lefts rights =>
          by_cases hlength : lefts.length = rights.length
          · cases lefts with
            | nil =>
                cases rights with
                | nil => exact ⟨_, .nil⟩
                | cons r rights => simp at hlength
            | cons l lefts =>
                cases rights with
                | nil => simp at hlength
                | cons r rights =>
                    have h : lefts.length = rights.length := by simpa using hlength
                    obtain ⟨first, hfirst⟩ := ih _ (.head h)
                    cases first with
                    | error error => exact ⟨_, .head h hfirst⟩
                    | ok s =>
                        obtain ⟨outcome, hrest⟩ := ih _ (.tail h hfirst)
                        exact ⟨_, .tail h hfirst hrest⟩
          · exact ⟨_, .lengths hlength⟩
      | waiting C solved =>
          rcases List.eq_nil_or_concat' C with rfl | ⟨rest, c, rfl⟩
          · exact ⟨_, .done solved⟩
          · obtain ⟨first, hlast⟩ := ih _ (.last rest c solved)
            cases first with
            | error error => exact ⟨_, .stop hlast⟩
            | ok s =>
                obtain ⟨outcome, hrest⟩ := ih _ (.others hlast)
                exact ⟨outcome, .goOn hlast hrest⟩

/-- A call ends with the outcome of the unifier and with no other one. -/
theorem ends_iff {call : Call} {outcome : Checked Empty (Subst Empty)} :
    call.Ends outcome ↔ outcome = call.outcome := by
  constructor
  · intro h
    exact h.outcome_eq.symm
  · intro h
    obtain ⟨outcome', hends⟩ := call.exists_ends
    rw [h, hends.outcome_eq]
    exact hends

/-- The loop of the solver ends with the outcome of the solver. -/
theorem ends_waiting_iff {C : List (Constraint Empty)}
    {outcome : Checked Empty (Subst Empty)} :
    Ends (waiting C ∅) outcome ↔ outcome = Constraint.solve C := by
  have hsolve : (waiting C ∅).outcome = Constraint.solve C := by
    simp only [Call.outcome]
    cases Constraint.solve C with
    | error error => rfl
    | ok s => exact congrArg Except.ok (Subst.compose_empty s)
  rw [ends_iff, hsolve]

/-- The recursion of unification and the loop of the solver end on all inputs: there is no
endless descent of calls, and every call has one outcome, which is the one that is
computed. -/
theorem recursion_ends :
    WellFounded Requires ∧
    (∀ (l r : MonoTy) (outcome : Checked Empty (Subst Empty)),
      Ends (types l r) outcome ↔ outcome = l.unify r) ∧
    (∀ (lefts rights : List MonoTy) (outcome : Checked Empty (Subst Empty)),
      Ends (sequences lefts rights) outcome ↔ outcome = Ty.unifyMany lefts rights) ∧
    (∀ (C : List (Constraint Empty)) (outcome : Checked Empty (Subst Empty)),
      Ends (waiting C ∅) outcome ↔ outcome = Constraint.solve C) := by
  refine ⟨wellFounded_requires, ?_, ?_, ?_⟩
  · intro l r outcome
    exact ends_iff
  · intro lefts rights outcome
    exact ends_iff
  · intro C outcome
    exact ends_waiting_iff

end Call

end LetPoly
