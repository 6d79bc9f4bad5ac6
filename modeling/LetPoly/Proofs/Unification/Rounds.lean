import LetPoly.Proofs.Unification

/-!
# Rounds of unification

A round of unification does one of seven things with two types.  The number of rounds is a
bound that is never met: unification starts with a round for each variable, and a round that
starts another one leaves it fewer variables.

Main results:

- Theorem {lit}`Ty.exists_roundView`: the cases of a round.
- Theorem {lit}`Ty.unify_eq_unifyRound`: unification is a round whose next round is
  unification.
-/

namespace LetPoly

/-! ## The cases of a round of unification -/

namespace Ty

/-- How a type is built on the outside; constants are told apart by their names. -/
inductive Outermost where
  | var
  | con (name : String)
  | fn
  | list
  | pair
deriving DecidableEq

/-- How a type is built on the outside. -/
def outermost : MonoTy → Outermost
  | var _ => .var
  | con name => .con name
  | fn _ _ => .fn
  | list _ => .list
  | pair _ _ => .pair
  | quantified mark _ _ => mark.elim

/-- Two types clash when none is a variable and they are built differently on the outside. -/
structure Clashes (l r : MonoTy) : Prop where
  left : l.outermost ≠ .var
  right : r.outermost ≠ .var
  ne : l.outermost ≠ r.outermost

/-- What a round of unification does with two types. -/
inductive RoundView (next : MonoTy → MonoTy → Checked Empty (Subst Empty)) :
    MonoTy → MonoTy → Checked Empty (Subst Empty) → Prop where
  | same (t : MonoTy) : RoundView next t t (.ok ∅)
  | left (v : String) {t : MonoTy} (h : var v ≠ t) : RoundView next (var v) t (bindVar v t)
  | right (v : String) {t : MonoTy} (h : t.outermost ≠ .var) :
      RoundView next t (var v) (bindVar v t)
  | fn {a b c d : MonoTy} (h : fn a b ≠ fn c d) :
      RoundView next (.fn a b) (.fn c d) (unifyParts next a b c d)
  | list {a c : MonoTy} (h : list a ≠ list c) :
      RoundView next (.list a) (.list c) (unifyRound next a c)
  | pair {a b c d : MonoTy} (h : pair a b ≠ pair c d) :
      RoundView next (.pair a b) (.pair c d) (unifyParts next a b c d)
  | clash {l r : MonoTy} (h : l.Clashes r) :
      RoundView next l r (.error (.rejected (.clash l r)))

theorem Clashes.unifyRound_eq {next : MonoTy → MonoTy → Checked Empty (Subst Empty)}
    {l r : MonoTy} (h : l.Clashes r) :
    unifyRound next l r = .error (.rejected (.clash l r)) := by
  obtain ⟨hl, hr, hne⟩ := h
  cases l with
  | quantified mark _ _ => exact mark.elim
  | _ =>
      cases r with
      | quantified mark _ _ => exact mark.elim
      | _ => simp_all [outermost, unifyRound, checkUnifiable, Bind.bind, Except.bind]

/-- The view of a round tells its outcome. -/
theorem RoundView.unifyRound_eq {next : MonoTy → MonoTy → Checked Empty (Subst Empty)}
    {l r : MonoTy} {outcome : Checked Empty (Subst Empty)} (h : RoundView next l r outcome) :
    unifyRound next l r = outcome := by
  cases h with
  | same => exact unifyRound_self l
  | left v h => exact unifyRound_var_left h
  | right v h => exact unifyRound_var_right fun u hu => h (hu ▸ rfl)
  | fn h => exact unifyRound_fn h
  | list h => exact unifyRound_list h
  | pair h => exact unifyRound_pair h
  | clash h => exact h.unifyRound_eq

/-- Every round has a view. -/
theorem exists_roundView (next : MonoTy → MonoTy → Checked Empty (Subst Empty)) (l r : MonoTy) :
    ∃ outcome, RoundView next l r outcome := by
  by_cases heq : l = r
  · subst heq
    exact ⟨_, .same l⟩
  cases l with
  | quantified mark _ _ => exact mark.elim
  | var v => exact ⟨_, .left v heq⟩
  | con name =>
      cases r with
      | quantified mark _ _ => exact mark.elim
      | var v => exact ⟨_, .right v (by simp [outermost])⟩
      | con other =>
          exact ⟨_, .clash ⟨by simp [outermost], by simp [outermost], by simp_all [outermost]⟩⟩
      | _ => exact ⟨_, .clash ⟨by simp [outermost], by simp [outermost], by simp [outermost]⟩⟩
  | fn a b =>
      cases r with
      | quantified mark _ _ => exact mark.elim
      | var v => exact ⟨_, .right v (by simp [outermost])⟩
      | fn c d => exact ⟨_, .fn heq⟩
      | _ => exact ⟨_, .clash ⟨by simp [outermost], by simp [outermost], by simp [outermost]⟩⟩
  | list a =>
      cases r with
      | quantified mark _ _ => exact mark.elim
      | var v => exact ⟨_, .right v (by simp [outermost])⟩
      | list c => exact ⟨_, .list heq⟩
      | _ => exact ⟨_, .clash ⟨by simp [outermost], by simp [outermost], by simp [outermost]⟩⟩
  | pair a b =>
      cases r with
      | quantified mark _ _ => exact mark.elim
      | var v => exact ⟨_, .right v (by simp [outermost])⟩
      | pair c d => exact ⟨_, .pair heq⟩
      | _ => exact ⟨_, .clash ⟨by simp [outermost], by simp [outermost], by simp [outermost]⟩⟩

end Ty

/-! ## The number of rounds -/

namespace Ty

section Round

variable {next next' : MonoTy → MonoTy → Checked Empty (Subst Empty)} {V : Finset String}

/-- Two ways to go on behind a unifier give the same outcome on types with fewer
variables. -/
def AgreeBelow (V : Finset String) (next next' : MonoTy → MonoTy → Checked Empty (Subst Empty)) :
    Prop :=
  ∀ W : Finset String, W.card < V.card → ∀ l r : MonoTy, l.Over W → r.Over W →
    next l r = next' l r

theorem unifyParts_congr {a b c d : MonoTy} (hnext : SettlesBelow V next)
    (hagree : AgreeBelow V next next') (ha : a.Over V) (hb : b.Over V) (hc : c.Over V)
    (hd : d.Over V) (hfirst : unifyRound next a c = unifyRound next' a c)
    (hsecond : unifyRound next b d = unifyRound next' b d) :
    unifyParts next a b c d = unifyParts next' a b c d := by
  unfold unifyParts
  rw [← hfirst]
  have hsettles := unifyRound_settles hnext ha hc
  cases hs : unifyRound next a c with
  | error error => rfl
  | ok s =>
      rw [hs] at hsettles
      have hresolved : s.ResolvedIn V := hsettles.resolved
      have hrest : unifySecond next b d s = unifySecond next' b d s := by
        unfold unifySecond
        by_cases hempty : s.isEmpty
        · rw [if_pos hempty, if_pos hempty, hsecond]
        · rw [if_neg hempty, if_neg hempty]
          exact hagree _ (card_filter_lt_of_not_isEmpty hresolved hempty) _ _
            (hb.apply_filter hresolved) (hd.apply_filter hresolved)
      simp only [Bind.bind, Except.bind, hrest]

/-- The next round matters on types with fewer variables only. -/
theorem unifyRound_congr (hnext : SettlesBelow V next) (hagree : AgreeBelow V next next')
    {l r : MonoTy} (hl : l.Over V) (hr : r.Over V) :
    unifyRound next l r = unifyRound next' l r := by
  -- the parts of the first type are smaller
  induction hsize : sizeOf l using Nat.strong_induction_on generalizing l r with
  | _ size ih =>
      subst hsize
      obtain ⟨outcome, hview⟩ := exists_roundView next l r
      rw [hview.unifyRound_eq]
      cases hview with
      | same => exact (RoundView.same l).unifyRound_eq.symm
      | left v h => exact (RoundView.left v h).unifyRound_eq.symm
      | right v h => exact (RoundView.right v h).unifyRound_eq.symm
      | @fn a b c d h =>
          obtain ⟨ha, hb⟩ := over_fn.1 hl
          obtain ⟨hc, hd⟩ := over_fn.1 hr
          rw [unifyRound_fn h]
          refine unifyParts_congr hnext hagree ha hb hc hd ?_ ?_
          · exact ih _ (by simp only [fn.sizeOf_spec]; omega) ha hc rfl
          · exact ih _ (by simp only [fn.sizeOf_spec]; omega) hb hd rfl
      | @list a c h =>
          rw [unifyRound_list h]
          exact ih _ (by simp only [list.sizeOf_spec]; omega) hl hr rfl
      | @pair a b c d h =>
          obtain ⟨ha, hb⟩ := over_pair.1 hl
          obtain ⟨hc, hd⟩ := over_pair.1 hr
          rw [unifyRound_pair h]
          refine unifyParts_congr hnext hagree ha hb hc hd ?_ ?_
          · exact ih _ (by simp only [pair.sizeOf_spec]; omega) ha hc rfl
          · exact ih _ (by simp only [pair.sizeOf_spec]; omega) hb hd rfl
      | clash h => exact h.unifyRound_eq.symm

end Round

theorem card_vars_le {V : Finset String} {l r : MonoTy} (hl : l.Over V) (hr : r.Over V) :
    (Constraint.vars [⟨l, r⟩]).card ≤ V.card := by
  refine Finset.card_le_card fun a ha => ?_
  have hmem : a ∈ l.freeVars ∨ a ∈ r.freeVars := by simpa [Constraint.Mentions] using ha
  cases hmem with
  | inl h => exact hl a h
  | inr h => exact hr a h

/-- With a round for each variable, the rounds go on as unification does. -/
theorem unifyRounds_eq_unifyRound_unify {n : Nat} {V : Finset String} (hV : V.card ≤ n)
    {l r : MonoTy} (hl : l.Over V) (hr : r.Over V) :
    unifyRounds n l r = unifyRound unify l r := by
  induction n using Nat.strong_induction_on generalizing V l r with
  | _ n ih =>
      cases n with
      | zero =>
          -- without variables no next round is started
          have hnone : ∀ W : Finset String, ¬ W.card < V.card := by
            intro W hW
            omega
          exact unifyRound_congr (fun W hW => absurd hW (hnone W))
            (fun W hW => absurd hW (hnone W)) hl hr
      | succ n =>
          refine unifyRound_congr (V := V) ?_ ?_ hl hr
          · intro W hW l r hl hr
            exact unifyRounds_settles (by omega) hl hr
          · intro W hW l r hl hr
            -- unification starts with no more rounds than there are variables left
            obtain ⟨hl', hr'⟩ := over_vars l r
            have hsize := card_vars_le hl hr
            have hcard := Constraint.card_vars_singleton l r
            calc unifyRounds n l r
                = unifyRound unify l r := ih n (by omega) (by omega) hl hr
              _ = unifyRounds (l.freeVars ∪ r.freeVars).size l r :=
                  (ih _ (by omega) (le_of_eq hcard) hl' hr').symm

/-- Unification is a round whose next round is unification: the number of rounds never
shows. -/
theorem unify_eq_unifyRound (l r : MonoTy) : l.unify r = unifyRound unify l r := by
  obtain ⟨hl, hr⟩ := over_vars l r
  exact unifyRounds_eq_unifyRound_unify (le_of_eq (Constraint.card_vars_singleton l r)) hl hr

end Ty

end LetPoly
