import LetPoly.Proofs.Schemes
import LetPoly.Proofs.Unification.Recursion
import Mathlib.Logic.Embedding.Basic

/-!
# Renaming type variables

Everything that the checker does with type variables is to compare them.  So a renaming that
keeps different variables apart carries types, substitutions and errors over, and the
outcomes of the solver with them.

Main results:

- Theorem {lit}`Ty.freeVars_relabel`: a renaming keeps the order of first occurrence.
- Theorem {lit}`Constraint.solve_relabel`: the solver commutes with renaming, failures included.
- Theorem {lit}`Ty.closeOver_relabel`: a type and a renamed one have the same principal
  scheme.
-/

namespace LetPoly

/-- Looking up a renamed name in a table with renamed names. -/
theorem lookup_map_names {α β : Type} {f : String → String} {g : α → β}
    {entries : List (String × α)} {a : String}
    (h : ∀ b ∈ entries.map Prod.fst, f a = f b → a = b) :
    (entries.map fun entry => (f entry.1, g entry.2)).lookup (f a) =
      (entries.lookup a).map g := by
  induction entries with
  | nil => rfl
  | cons entry rest ih =>
      obtain ⟨b, value⟩ := entry
      by_cases hab : a = b
      · subst hab
        simp
      · have hbeq : (a == b) = false := by simp [hab]
        have hbeq' : (f a == f b) = false := by
          simpa using fun heq => hab (h b (by simp) heq)
        rw [List.map_cons, List.lookup_cons, List.lookup_cons, hbeq, hbeq']
        exact ih fun b hb => h b (List.mem_cons_of_mem _ hb)

/-! ## Types -/

namespace Ty

/-- Renames the variables of a type. -/
def relabel (f : String → String) (t : MonoTy) : MonoTy :=
  t.inst fun a => .var (f a)

section Constructors

variable (f : String → String)

/-- Variables are renamed; the other forms pass the renaming on to their parts. -/
@[simp] theorem relabel_var (a : String) : (var a).relabel f = var (f a) :=
  rfl

@[simp] theorem relabel_con (name : String) : (con name).relabel f = con name :=
  rfl

@[simp] theorem relabel_int : int.relabel f = int :=
  rfl

@[simp] theorem relabel_bool : bool.relabel f = bool :=
  rfl

@[simp] theorem relabel_fn (t u : MonoTy) :
    (fn t u).relabel f = fn (t.relabel f) (u.relabel f) :=
  rfl

@[simp] theorem relabel_list (t : MonoTy) : (list t).relabel f = list (t.relabel f) :=
  rfl

@[simp] theorem relabel_pair (t u : MonoTy) :
    (pair t u).relabel f = pair (t.relabel f) (u.relabel f) :=
  rfl

end Constructors

/-- The free variables are renamed with the type. -/
theorem mem_freeVars_relabel {f : String → String} {t : MonoTy} {b : String} :
    b ∈ (t.relabel f).freeVars ↔ ∃ a ∈ t.freeVars, b = f a := by
  simp [relabel, mem_freeVars_inst]

/-- Renaming back gives the type that was renamed. -/
theorem relabel_relabel_of_leftInverse {f g : String → String} (h : ∀ a, g (f a) = a)
    (t : MonoTy) : (t.relabel f).relabel g = t := by
  rw [relabel, relabel, inst_inst]
  simp only [inst_var, h, inst_self]

/-- Different types stay different. -/
theorem relabel_injective (f : String ↪ String) : Function.Injective (relabel f) :=
  Function.LeftInverse.injective
    (relabel_relabel_of_leftInverse (Function.leftInverse_invFun f.injective))

/-- Types that a renaming makes equal are equal, since it confuses no variables. -/
theorem relabel_inj {f : String ↪ String} {t u : MonoTy} :
    t.relabel f = u.relabel f ↔ t = u :=
  (relabel_injective f).eq_iff

end Ty

/-- Unions are renamed member by member, if the renaming keeps the members apart. -/
private theorem toList_union_of_map {f : String → String} {s t s' t' : OrderedSet String}
    (hs : s'.toList = s.toList.map f) (ht : t'.toList = t.toList.map f)
    (hf : Set.InjOn f {a | a ∈ s ∨ a ∈ t}) : (s' ∪ t').toList = (s ∪ t).toList.map f := by
  change s'.toList ++ t'.toList.filter (fun a => !s'.contains a) =
    (s.toList ++ t.toList.filter fun a => !s.contains a).map f
  rw [hs, ht, List.map_append, List.filter_map]
  congr 2
  refine List.filter_congr fun a ha => ?_
  -- a renamed variable is new exactly when the variable is
  have hmem : f a ∈ s' ↔ a ∈ s := by
    rw [← OrderedSet.mem_toList, hs, List.mem_map]
    constructor
    · rintro ⟨b, hb, heq⟩
      exact hf (Or.inl hb) (Or.inr ha) heq ▸ hb
    · exact fun h => ⟨a, h, rfl⟩
  simp [OrderedSet.contains, hmem]

namespace Ty

/-- A renaming keeps the order of first occurrence. -/
theorem freeVars_relabel {f : String → String} {t : MonoTy}
    (hf : Set.InjOn f {a | a ∈ t.freeVars}) :
    (t.relabel f).freeVars.toList = t.freeVars.toList.map f := by
  induction t using monoInduction with
  | var a => rfl
  | con name => rfl
  | fn t u iht ihu =>
      have hsub : Set.InjOn f {a | a ∈ t.freeVars ∨ a ∈ u.freeVars} :=
        hf.mono fun a ha => mem_freeVars_fn.2 ha
      exact toList_union_of_map (iht (hsub.mono fun a ha => Or.inl ha))
        (ihu (hsub.mono fun a ha => Or.inr ha)) hsub
  | list t ih => exact ih hf
  | pair t u iht ihu =>
      have hsub : Set.InjOn f {a | a ∈ t.freeVars ∨ a ∈ u.freeVars} :=
        hf.mono fun a ha => mem_freeVars_pair.2 ha
      exact toList_union_of_map (iht (hsub.mono fun a ha => Or.inl ha))
        (ihu (hsub.mono fun a ha => Or.inr ha)) hsub

/-- A renamed variable is free exactly where the variable was. -/
theorem mem_freeVars_relabel_iff {f : String ↪ String} {t : MonoTy} {a : String} :
    f a ∈ (t.relabel f).freeVars ↔ a ∈ t.freeVars := by
  rw [mem_freeVars_relabel]
  constructor
  · rintro ⟨b, hb, heq⟩
    exact f.injective heq ▸ hb
  · exact fun h => ⟨a, h, rfl⟩

end Ty

/-! ## Substitutions -/

namespace Subst

/-- Renames the variables of a substitution, in its images as well. -/
def relabel (f : String ↪ String) (s : Subst Empty) : Subst Empty where
  entries := s.entries.map fun entry => (f entry.1, entry.2.relabel f)
  nodup := by
    have hnames : (s.entries.map fun entry => (f entry.1, entry.2.relabel f)).map Prod.fst =
        (s.entries.map Prod.fst).map f := by
      simp [Function.comp_def]
    rw [hnames]
    exact s.nodup.map f.injective

variable (f : String ↪ String)

@[simp] theorem relabel_empty : relabel f ∅ = ∅ :=
  rfl

/-- A renamed substitution binds the renamed names, in the same order. -/
theorem names_relabel (s : Subst Empty) : Bindings.names (s.relabel f) = s.names.map f := by
  simp [Bindings.names, relabel, Function.comp_def]

@[simp] theorem get?_relabel (s : Subst Empty) (a : String) :
    Bindings.get? (s.relabel f) (f a) = (s.get? a).map (Ty.relabel f) :=
  lookup_map_names fun _ _ heq => f.injective heq

/-- What a renamed substitution puts for a renamed variable. -/
theorem image_relabel (s : Subst Empty) (a : String) :
    (s.relabel f).image (f a) = (s.image a).relabel f := by
  rw [image, image, get?_relabel]
  cases Bindings.get? s a <;> rfl

end Subst

/-- Renaming commutes with substitution. -/
theorem Ty.apply_relabel (f : String ↪ String) (t : MonoTy) (s : Subst Empty) :
    (t.relabel f).apply (s.relabel f) = (t.apply s).relabel f := by
  rw [Ty.apply_eq_inst, Ty.apply_eq_inst, Ty.relabel, Ty.relabel, Ty.inst_inst, Ty.inst_inst]
  exact Ty.inst_congr fun a _ => Subst.image_relabel f s a

/-- Renaming commutes with composition, and keeps its order. -/
theorem Subst.compose_relabel (f : String ↪ String) (s₁ s₂ : Subst Empty) :
    compose (s₁.relabel f) (s₂.relabel f) = (compose s₁ s₂).relabel f := by
  refine Bindings.ext_names ?_ fun x hx => ?_
  · simp only [compose, Bindings.names_merge, Bindings.names_mapValues, names_relabel,
      List.map_append, List.filter_map]
    congr 2
    refine List.filter_congr fun a _ => ?_
    simp
  · have hx' : x ∈ (s₁.names ++ s₂.names.filter fun a => !s₁.names.contains a).map f := by
      simpa only [compose, Bindings.names_merge, Bindings.names_mapValues, names_relabel,
        List.map_append, List.filter_map, Function.comp_def, List.contains_eq_mem,
        List.mem_map_of_injective f.injective] using hx
    obtain ⟨a, -, rfl⟩ := List.mem_map.1 hx'
    rw [get?_compose, get?_relabel, get?_relabel, get?_relabel, get?_compose]
    cases Bindings.get? s₂ a with
    | none => simp
    | some t => simp [Ty.apply_relabel]

/-! ## Errors and outcomes -/

/-- Renames the variables of a scheme, the quantified ones as well. -/
def Scheme.relabel (f : String → String) (σ : Scheme Empty) : Scheme Empty where
  bound := σ.bound.map f
  body := σ.body.relabel f

/-- Renames the variables of a constraint. -/
def Constraint.relabel (f : String → String) (c : Constraint Empty) : Constraint Empty where
  left := c.left.relabel f
  right := c.right.relabel f

/-- Renames the type variables of a type error. -/
def TypeError.relabel (f : String → String) : TypeError Empty → TypeError Empty
  | clash left right => clash (left.relabel f) (right.relabel f)
  | infinite a t => infinite (f a) (t.relabel f)
  | lengths lefts rights => lengths (lefts.map (Ty.relabel f)) (rights.map (Ty.relabel f))
  | ambiguous constraints => ambiguous (constraints.map (Constraint.relabel f))
  | unbound x => unbound x

/-- Renames the type variables of a fault. -/
def Fault.relabel (f : String → String) : Fault Empty → Fault Empty
  | notUnifiable t => notUnifiable (t.relabel f)
  | unusedVariable σ a => unusedVariable (σ.relabel f) (f a)
  | freeVariable σ a => freeVariable (σ.relabel f) (f a)
  | notNormalizable t => notNormalizable (t.relabel f)
  | hole => hole
  | valueHole => valueHole
  | notLiteral e => notLiteral e

/-- Renames the type variables of an error. -/
def CheckError.relabel (f : String → String) : CheckError Empty → CheckError Empty
  | rejected error => rejected (error.relabel f)
  | broken fault => broken (fault.relabel f)

/-- Renames the type variables of an outcome, those of its answer in the given way. -/
def Checked.relabel {α β : Type} (f : String → String) (g : α → β) :
    Checked Empty α → Checked Empty β
  | .ok a => .ok (g a)
  | .error error => .error (error.relabel f)

/-- A renamed outcome may be worked on as the outcome is. -/
theorem Checked.relabel_bind {α β γ δ : Type} {f : String → String} {g : α → γ} {h : β → δ}
    {x : Checked Empty α} {k : α → Checked Empty β} {k' : γ → Checked Empty δ}
    (hk : ∀ a, k' (g a) = (k a).relabel f h) :
    (x.relabel f g >>= k') = (x >>= k).relabel f h := by
  cases x with
  | ok a => exact hk a
  | error error => rfl

section Inverse

variable {f g : String → String} (h : ∀ a, g (f a) = a)

include h

/-- A renaming of schemes can be undone. -/
theorem Scheme.relabel_relabel_of_leftInverse (σ : Scheme Empty) :
    (σ.relabel f).relabel g = σ := by
  simp [Scheme.relabel, Function.comp_def, h, Ty.relabel_relabel_of_leftInverse h]

/-- A renaming of constraints can be undone. -/
theorem Constraint.relabel_relabel_of_leftInverse (c : Constraint Empty) :
    (c.relabel f).relabel g = c := by
  simp [Constraint.relabel, Ty.relabel_relabel_of_leftInverse h]

/-- Renaming back gives the error that was renamed. -/
theorem CheckError.relabel_relabel_of_leftInverse (error : CheckError Empty) :
    (error.relabel f).relabel g = error := by
  have hty := Ty.relabel_relabel_of_leftInverse h
  have hscheme := Scheme.relabel_relabel_of_leftInverse h
  have hconstraint := Constraint.relabel_relabel_of_leftInverse h
  cases error with
  | rejected error =>
      cases error <;> simp [CheckError.relabel, TypeError.relabel, Function.comp_def, h, hty,
        hconstraint]
  | broken fault =>
      cases fault <;> simp [CheckError.relabel, Fault.relabel, h, hty, hscheme]

end Inverse

/-! ## Unification -/

namespace Ty

variable (f : String ↪ String)

/-- Binding a variable commutes with renaming. -/
theorem bindVar_relabel (v : String) (t : MonoTy) :
    bindVar (f v) (t.relabel f) = (bindVar v t).relabel f (Subst.relabel f) := by
  have hself : t.relabel f = var (f v) ↔ t = var v := by
    rw [← relabel_var, relabel_inj]
  unfold bindVar
  simp only [hself, mem_freeVars_relabel_iff]
  split_ifs <;> rfl

variable {f}

/-- A renaming keeps the outermost form. -/
@[simp] theorem outermost_relabel (t : MonoTy) : (t.relabel f).outermost = t.outermost := by
  induction t using monoInduction <;> rfl

/-- Types that clash clash after a renaming. -/
theorem Clashes.relabel {l r : MonoTy} (h : l.Clashes r) :
    (l.relabel f).Clashes (r.relabel f) := by
  constructor <;> simp only [outermost_relabel]
  · exact h.left
  · exact h.right
  · exact h.ne

/-- Renaming commutes with substitution on all types of a list. -/
theorem map_apply_relabel (ts : List MonoTy) (s : Subst Empty) :
    (ts.map fun t => t.apply s).map (relabel f) =
      (ts.map (relabel f)).map fun t => t.apply (s.relabel f) := by
  simp only [List.map_map, Function.comp_def, apply_relabel]

end Ty

namespace Constraint

variable {f : String ↪ String}

/-- Renaming commutes with substitution on constraints. -/
theorem apply_relabel (c : Constraint Empty) (s : Subst Empty) :
    (c.relabel f).apply (s.relabel f) = (c.apply s).relabel f := by
  simp only [apply, relabel, Ty.apply_relabel]

/-- Renaming commutes with substitution on all constraints of a list. -/
theorem map_apply_relabel (C : List (Constraint Empty)) (s : Subst Empty) :
    (C.map fun c => c.apply s).map (relabel f) =
      (C.map (relabel f)).map fun c => c.apply (s.relabel f) := by
  simp only [List.map_map, Function.comp_def, apply_relabel]

end Constraint

namespace Call

/-- Renames the variables of a call. -/
def relabel (f : String ↪ String) : Call → Call
  | types left right => types (left.relabel f) (right.relabel f)
  | sequences lefts rights => sequences (lefts.map (Ty.relabel f)) (rights.map (Ty.relabel f))
  | waiting constraints solved =>
      waiting (constraints.map (Constraint.relabel f)) (solved.relabel f)

/-- A renamed call ends with the renamed outcome. -/
theorem Ends.relabel {f : String ↪ String} {call : Call}
    {outcome : Checked Empty (Subst Empty)} (h : call.Ends outcome) :
    (call.relabel f).Ends (outcome.relabel f (Subst.relabel f)) := by
  induction h with
  | same t => exact .same (t.relabel f)
  | @left v t h =>
      rw [← Ty.bindVar_relabel]
      exact .left (f v) ((Ty.relabel_injective f).ne h)
  | @right v t h =>
      rw [← Ty.bindVar_relabel]
      refine .right (f v) ?_
      rwa [Ty.outermost_relabel]
  | fn h _ ih => exact .fn ((Ty.relabel_injective f).ne h) ih
  | list h _ ih => exact .list ((Ty.relabel_injective f).ne h) ih
  | pair h _ ih => exact .pair ((Ty.relabel_injective f).ne h) ih
  | clash h => exact .clash h.relabel
  | lengths h => exact .lengths (by simpa using h)
  | nil => exact .nil
  | head h _ ih => exact .head (by simpa using h) ih
  | @tail l r lefts rights s outcome h _ _ ihfirst ihrest =>
      have houtcome : (do return Subst.compose (← outcome) s).relabel f (Subst.relabel f) =
          (do return Subst.compose (← outcome.relabel f (Subst.relabel f)) (s.relabel f)) := by
        refine (Checked.relabel_bind fun s' => ?_).symm
        exact congrArg Except.ok (Subst.compose_relabel f s' s)
      rw [houtcome]
      refine .tail (by simpa using h) ihfirst ?_
      rwa [Call.relabel, Ty.map_apply_relabel, Ty.map_apply_relabel] at ihrest
  | done solved => exact .done (solved.relabel f)
  | @stop C c _ _ _ ih =>
      rw [Call.relabel, List.map_append]
      exact .stop (c := c.relabel f) ih
  | @goOn C c solved s _ _ _ ihlast ihrest =>
      rw [Call.relabel, List.map_append]
      refine .goOn (c := c.relabel f) ihlast ?_
      rwa [Call.relabel, Constraint.map_apply_relabel, ← Subst.compose_relabel] at ihrest

end Call

/-- The solver commutes with renaming, whether it succeeds or fails. -/
theorem Constraint.solve_relabel (f : String ↪ String) (C : List (Constraint Empty)) :
    solve (C.map (relabel f)) = (solve C).relabel f (Subst.relabel f) := by
  have hends : (Call.waiting C ∅).Ends (solve C) := Call.ends_waiting_iff.2 rfl
  exact (Call.ends_waiting_iff.1 hends.relabel).symm

/-! ## Principal schemes -/

/-- A type and a renamed one have the same principal scheme. -/
theorem Ty.closeOver_relabel (f : String ↪ String) (t : MonoTy) :
    (t.relabel f).closeOver = t.closeOver := by
  have hvars : (t.relabel f).freeVars.toList = t.freeVars.toList.map f :=
    freeVars_relabel f.injective.injOn
  have hletter : ∀ a, (t.relabel f).letterTable.lookup (f a) = t.letterTable.lookup a := by
    intro a
    rw [letterTable, letterTable, hvars, List.length_map, List.zip_map_left]
    exact (lookup_map_names fun _ _ heq => f.injective heq).trans Option.map_id'
  rw [closeOver_eq, closeOver_eq, hvars, List.length_map, relabel, inst_inst]
  congr 2
  refine inst_congr fun a ha => ?_
  obtain ⟨b, -, hb⟩ := exists_lookup_letterTable ha
  have hb' := (hletter a).trans hb
  rw [relabel] at hb'
  rw [inst_var, hb, hb', Option.getD_some, Option.getD_some]

end LetPoly
