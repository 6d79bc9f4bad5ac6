import LetPoly.Subst
import Mathlib.Data.Set.Basic

/-!
# Assignments of types to type variables

An assignment gives every type variable a type, and a type is instantiated by replacing
all its variables at once.  Substitutions act as the assignments that leave all but
finitely many variables alone, so the laws of substitution are stated and proved for
assignments.

Main results:

- Theorem {lit}`Ty.apply_eq_inst`: a substitution acts as the assignment of its images.
- Theorem {lit}`Ty.inst_eq_inst_iff`: two assignments give a type the same instance exactly
  when they agree on its free variables.
- Theorem {lit}`Ty.mem_freeVars_inst`: where the variables of an instance come from.
- Theorem {lit}`Subst.image_compose`: composition of substitutions is composition of
  assignments.
- Theorem {lit}`Env.mem_freeVars`: the free variables of an environment, said through
  look-up.
-/

namespace LetPoly

/-- A type for every type variable. -/
abbrev Assignment :=
  String → MonoTy

/-- An assignment that takes the types of the listed variables from another one. -/
def Assignment.overlay (vars : List String) (η θ : Assignment) : Assignment :=
  fun a => if a ∈ vars then η a else θ a

/-- The listed variables are read from the first assignment. -/
theorem Assignment.overlay_of_mem {vars : List String} {η θ : Assignment} {a : String}
    (h : a ∈ vars) : overlay vars η θ a = η a :=
  if_pos h

/-- All others are read from the second one. -/
theorem Assignment.overlay_of_not_mem {vars : List String} {η θ : Assignment} {a : String}
    (h : a ∉ vars) : overlay vars η θ a = θ a :=
  if_neg h

namespace Ty

/-- Types without quantifiers are built by five constructors only. -/
@[elab_as_elim]
theorem monoInduction {motive : MonoTy → Prop}
    (var : ∀ name, motive (.var name))
    (con : ∀ name, motive (.con name))
    (fn : ∀ argument result, motive argument → motive result → motive (.fn argument result))
    (list : ∀ element, motive element → motive (.list element))
    (pair : ∀ first second, motive first → motive second → motive (.pair first second))
    (t : MonoTy) : motive t := by
  induction t with
  | var name => exact var name
  | con name => exact con name
  | fn argument result ih₁ ih₂ => exact fn argument result ih₁ ih₂
  | list element ih => exact list element ih
  | pair first second ih₁ ih₂ => exact pair first second ih₁ ih₂
  | quantified mark _ _ _ => exact mark.elim

/-- Replaces every variable of a type by the type that an assignment gives it. -/
def inst (θ : Assignment) : MonoTy → MonoTy
  | var name => θ name
  | con name => con name
  | fn argument result => fn (argument.inst θ) (result.inst θ)
  | list element => list (element.inst θ)
  | pair first second => pair (first.inst θ) (second.inst θ)
  | quantified mark _ _ => mark.elim

/-! ## Free variables of the type constructors -/

/-- A variable is free in itself alone; the other forms take the free variables of their parts. -/
@[simp] theorem mem_freeVars_var {a b : String} :
    a ∈ (var b : MonoTy).freeVars ↔ a = b :=
  OrderedSet.mem_singleton

@[simp] theorem mem_freeVars_con {a name : String} :
    ¬ a ∈ (con name : MonoTy).freeVars :=
  OrderedSet.not_mem_empty

@[simp] theorem mem_freeVars_fn {a : String} {t u : MonoTy} :
    a ∈ (fn t u).freeVars ↔ a ∈ t.freeVars ∨ a ∈ u.freeVars :=
  OrderedSet.mem_union

@[simp] theorem mem_freeVars_list {a : String} {t : MonoTy} :
    a ∈ (list t).freeVars ↔ a ∈ t.freeVars :=
  Iff.rfl

@[simp] theorem mem_freeVars_pair {a : String} {t u : MonoTy} :
    a ∈ (pair t u).freeVars ↔ a ∈ t.freeVars ∨ a ∈ u.freeVars :=
  OrderedSet.mem_union

/-! ## Laws of instantiation -/

/-- A variable is assigned its type; the other forms pass the assignment on to their parts. -/
@[simp] theorem inst_var (θ : Assignment) (a : String) : (var a).inst θ = θ a :=
  rfl

@[simp] theorem inst_con (θ : Assignment) (name : String) : (con name).inst θ = con name :=
  rfl

@[simp] theorem inst_int (θ : Assignment) : int.inst θ = int :=
  rfl

@[simp] theorem inst_bool (θ : Assignment) : bool.inst θ = bool :=
  rfl

@[simp] theorem inst_fn (θ : Assignment) (t u : MonoTy) :
    (fn t u).inst θ = fn (t.inst θ) (u.inst θ) :=
  rfl

@[simp] theorem inst_list (θ : Assignment) (t : MonoTy) :
    (list t).inst θ = list (t.inst θ) :=
  rfl

@[simp] theorem inst_pair (θ : Assignment) (t u : MonoTy) :
    (pair t u).inst θ = pair (t.inst θ) (u.inst θ) :=
  rfl

/-- Two assignments give a type the same instance exactly when they agree on its free
variables. -/
theorem inst_eq_inst_iff {θ ρ : Assignment} {t : MonoTy} :
    t.inst θ = t.inst ρ ↔ ∀ a ∈ t.freeVars, θ a = ρ a := by
  induction t using monoInduction with
  | var name => simp
  | con name => simp
  | fn argument result ih₁ ih₂ =>
      simp only [inst_fn, fn.injEq, ih₁, ih₂, mem_freeVars_fn]
      grind
  | list element ih => simp only [inst_list, list.injEq, ih, mem_freeVars_list]
  | pair first second ih₁ ih₂ =>
      simp only [inst_pair, pair.injEq, ih₁, ih₂, mem_freeVars_pair]
      grind

/-- Assignments that agree on the free variables of a type give it the same instance. -/
theorem inst_congr {θ ρ : Assignment} {t : MonoTy} (h : ∀ a ∈ t.freeVars, θ a = ρ a) :
    t.inst θ = t.inst ρ :=
  inst_eq_inst_iff.2 h

/-- Assigning every variable to itself changes nothing. -/
@[simp] theorem inst_self (t : MonoTy) : t.inst var = t := by
  induction t using monoInduction with
  | var name => rfl
  | con name => rfl
  | fn argument result ih₁ ih₂ => rw [inst_fn, ih₁, ih₂]
  | list element ih => rw [inst_list, ih]
  | pair first second ih₁ ih₂ => rw [inst_pair, ih₁, ih₂]

/-- Instantiating twice is instantiating once by the composed assignment. -/
theorem inst_inst (θ ρ : Assignment) (t : MonoTy) :
    (t.inst θ).inst ρ = t.inst fun a => (θ a).inst ρ := by
  induction t using monoInduction with
  | var name => rfl
  | con name => rfl
  | fn argument result ih₁ ih₂ => simp only [inst_fn, ih₁, ih₂]
  | list element ih => simp only [inst_list, ih]
  | pair first second ih₁ ih₂ => simp only [inst_pair, ih₁, ih₂]

/-- The variables of an instance are those of the types put in. -/
theorem mem_freeVars_inst {θ : Assignment} {t : MonoTy} {b : String} :
    b ∈ (t.inst θ).freeVars ↔ ∃ a ∈ t.freeVars, b ∈ (θ a).freeVars := by
  induction t using monoInduction with
  | var name => simp
  | con name => simp
  | fn argument result ih₁ ih₂ =>
      simp only [inst_fn, mem_freeVars_fn, ih₁, ih₂, or_and_right, exists_or]
  | list element ih => simpa using ih
  | pair first second ih₁ ih₂ =>
      simp only [inst_pair, mem_freeVars_pair, ih₁, ih₂, or_and_right, exists_or]

end Ty

namespace Subst

/-- The assignment as which a substitution acts. -/
def image (s : Subst Empty) : Assignment :=
  fun a => (s.get? a).getD (.var a)

/-- A variable that is bound is replaced. -/
theorem image_of_get?_eq_some {s : Subst Empty} {a : String} {t : MonoTy}
    (h : s.get? a = some t) : s.image a = t := by
  simp [image, h]

/-- A variable that is not bound stays. -/
theorem image_of_get?_eq_none {s : Subst Empty} {a : String} (h : s.get? a = none) :
    s.image a = .var a := by
  simp [image, h]

end Subst

/-- A substitution acts on types as the assignment of its images. -/
theorem Ty.apply_eq_inst (t : MonoTy) (s : Subst Empty) : t.apply s = t.inst s.image := by
  induction t using Ty.monoInduction with
  | var name => rfl
  | con name => rfl
  | fn argument result ih₁ ih₂ => rw [Ty.apply, Ty.inst_fn, ih₁, ih₂]
  | list element ih => rw [Ty.apply, Ty.inst_list, ih]
  | pair first second ih₁ ih₂ => rw [Ty.apply, Ty.inst_pair, ih₁, ih₂]

namespace Subst

/-- A composition acts like its second substitution followed by its first. -/
theorem image_compose (s₁ s₂ : Subst Empty) (a : String) :
    (compose s₁ s₂).image a = (s₂.image a).inst s₁.image := by
  simp only [image, get?_compose]
  cases h : Bindings.get? s₂ a with
  | none => simp [image]
  | some t =>
      simp only [Option.map_some, Option.some_or, Option.getD_some]
      exact t.apply_eq_inst s₁

/-- A substitution without some names leaves these alone and acts as before on the
others. -/
theorem image_without (s : Subst Empty) (dropped : List String) :
    image (s.without dropped) = Assignment.overlay dropped .var s.image := by
  funext a
  by_cases h : a ∈ dropped
  · rw [Assignment.overlay_of_mem h]
    simp [image, h]
  · rw [Assignment.overlay_of_not_mem h]
    simp [image, h]

end Subst

namespace Bindings

variable {α : Type}

/-- The values of a map are those that some name has. -/
theorem mem_values_iff {b : Bindings α} {v : α} :
    v ∈ b.values ↔ ∃ name, b.get? name = some v := by
  obtain ⟨entries, hnodup⟩ := b
  simp only [values, get?]
  induction entries with
  | nil => simp
  | cons entry rest ih =>
      obtain ⟨key, value⟩ := entry
      simp only [List.map_cons, List.nodup_cons] at hnodup
      simp only [List.map_cons, List.mem_cons, ih hnodup.2]
      constructor
      · rintro (rfl | ⟨name, hname⟩)
        · exact ⟨key, by simp⟩
        · refine ⟨name, ?_⟩
          have hne : name ≠ key := by
            rintro rfl
            have hmem : name ∈ rest.map Prod.fst :=
              mem_names_iff (b := ⟨rest, hnodup.2⟩).2 (by simp [get?, hname])
            exact hnodup.1 hmem
          have hbeq : (name == key) = false := by simp [hne]
          rw [List.lookup_cons, hbeq]
          exact hname
      · rintro ⟨name, hname⟩
        by_cases hk : name = key
        · subst hk
          simp only [List.lookup_cons_self, Option.some.injEq] at hname
          exact Or.inl hname.symm
        · have hbeq : (name == key) = false := by simp [hk]
          rw [List.lookup_cons, hbeq] at hname
          exact Or.inr ⟨name, hname⟩

/-- Inserting bindings one after the other: the last one of a name counts. -/
theorem get?_foldl_insert (entries : List (String × α)) (b : Bindings α) (name : String) :
    (entries.foldl (fun b entry => b.insert entry.1 entry.2) b).get? name =
      (entries.reverse.lookup name).or (b.get? name) := by
  induction entries generalizing b with
  | nil => simp
  | cons entry rest ih =>
      obtain ⟨key, value⟩ := entry
      rw [List.foldl_cons, ih, get?_insert, List.reverse_cons, List.lookup_append]
      by_cases h : name = key
      · subst h
        cases rest.reverse.lookup name <;> simp
      · have hbeq : (name == key) = false := by simp [h]
        cases rest.reverse.lookup name <;> simp [h, List.lookup_cons, hbeq]

/-- In the map of a list of bindings the last binding of a name counts. -/
theorem get?_ofList (entries : List (String × α)) (name : String) :
    (ofList entries).get? name = entries.reverse.lookup name := by
  rw [ofList, get?_foldl_insert]
  cases entries.reverse.lookup name <;> rfl

end Bindings

/-! ## Free variables of schemes and environments -/

/-- A variable is free in a scheme when it occurs in the body and is not quantified. -/
theorem Scheme.mem_freeVars {σ : Scheme Empty} {a : String} :
    a ∈ σ.freeVars ↔ a ∈ σ.body.freeVars ∧ a ∉ σ.bound := by
  simp [Scheme.freeVars, OrderedSet.mem_filter]

/-- A scheme is closed when all variables of its body are quantified. -/
theorem Scheme.closed_iff {σ : Scheme Empty} :
    σ.Closed ↔ ∀ a ∈ σ.body.freeVars, a ∈ σ.bound := by
  simp [Scheme.Closed, Scheme.mem_freeVars]

namespace Env

/-- The variables of all schemes are collected one scheme after the other. -/
private theorem mem_foldl_union {schemes : List (Scheme Empty)} {vars : OrderedSet String}
    {a : String} :
    a ∈ schemes.foldl (fun vars σ => vars ∪ σ.freeVars) vars ↔
      a ∈ vars ∨ ∃ σ ∈ schemes, a ∈ σ.freeVars := by
  induction schemes generalizing vars with
  | nil => simp
  | cons σ rest ih =>
      rw [List.foldl_cons, ih]
      simp [or_assoc]

/-- A variable is free in an environment when it is free in the scheme of some name. -/
theorem mem_freeVars {Γ : Env Empty} {a : String} :
    a ∈ Γ.freeVars ↔ ∃ x σ, Γ.get? x = some σ ∧ a ∈ σ.freeVars := by
  have h : a ∈ Γ.freeVars ↔ ∃ σ ∈ Γ.values, a ∈ σ.freeVars := by
    simp [freeVars, mem_foldl_union]
  rw [h]
  constructor
  · rintro ⟨σ, hσ, ha⟩
    obtain ⟨x, hx⟩ := Bindings.mem_values_iff.1 hσ
    exact ⟨x, σ, hx, ha⟩
  · rintro ⟨x, σ, hx, ha⟩
    exact ⟨σ, Bindings.mem_values_iff.2 ⟨x, hx⟩, ha⟩

/-- Looking up a name after a substitution. -/
@[simp] theorem get?_apply (Γ : Env Empty) (s : Subst Empty) (x : String) :
    Bindings.get? (Γ.apply s) x = (Γ.get? x).map fun σ => σ.apply s :=
  Bindings.get?_mapValues _ _ _

end Env

end LetPoly
