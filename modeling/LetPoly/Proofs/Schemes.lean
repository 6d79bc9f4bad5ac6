import LetPoly.Proofs.Assignment
import LetPoly.Proofs.LetterNames
import Mathlib.Data.Set.Insert
import Mathlib.Logic.Function.Basic

/-!
# Instances of schemes

A scheme stands for the types that come from its body by putting types in for the
quantified variables.  While inference is under way the free variables of a scheme stand
for types as well, which an assignment tells, so the instances of a scheme are taken
relative to an assignment.

Main results:

- Theorem {lit}`Scheme.instance_iff`: instances by a substitution are instances relative to
  the assignment that leaves all variables alone.
- Theorem {lit}`Scheme.instances_apply`: a substitution that captures nothing and is
  absorbed by an assignment keeps the instances of a scheme.
- Theorem {lit}`Scheme.exists_fresh_copy`: a scheme under an assignment is no more general
  than one whose quantified variables avoid given names.
- Theorem {lit}`Ty.exists_closeOver`: every type has a principal scheme, of which exactly
  its instances are instances.
-/

namespace LetPoly

open Assignment (overlay overlay_of_mem overlay_of_not_mem)

namespace Scheme

/-- A type is an instance of a scheme when it is the body with types put in for quantified
variables. -/
def Instance (σ : Scheme Empty) (t : MonoTy) : Prop :=
  ∃ s : Subst Empty, (∀ a ∈ s.names, a ∈ σ.bound) ∧ σ.body.apply s = t

/-- The types for which a scheme stands when its free variables have the types of an
assignment. -/
def instances (σ : Scheme Empty) (θ : Assignment) : Set MonoTy :=
  {t | ∃ η : Assignment, σ.body.inst (overlay σ.bound η θ) = t}

/-- A substitution that gives the listed variables the types of an assignment. -/
def substOf (η : Assignment) (vars : List String) : Subst Empty :=
  .ofList (vars.map fun a => (a, η a))

/-- The substitution of an assignment binds the listed variables. -/
theorem get?_substOf (η : Assignment) (vars : List String) (a : String) :
    (substOf η vars).get? a = if a ∈ vars then some (η a) else none := by
  rw [substOf, Bindings.get?_ofList, ← List.map_reverse]
  have hlookup : ∀ names : List String, (names.map fun a => (a, η a)).lookup a =
      if a ∈ names then some (η a) else none := by
    intro names
    induction names with
    | nil => simp
    | cons name rest ih =>
        by_cases h : a = name
        · subst h
          simp
        · have hbeq : (a == name) = false := by simp [h]
          simp [List.lookup_cons, hbeq, ih, h]
  rw [hlookup]
  simp

/-- Instances by a substitution are those relative to the assignment that leaves every
variable alone. -/
theorem instance_iff {σ : Scheme Empty} {t : MonoTy} :
    σ.Instance t ↔ t ∈ σ.instances Ty.var := by
  constructor
  · rintro ⟨s, hnames, rfl⟩
    refine ⟨s.image, ?_⟩
    rw [Ty.apply_eq_inst]
    refine Ty.inst_congr fun a _ => ?_
    by_cases ha : a ∈ σ.bound
    · rw [overlay_of_mem ha]
    · have hnone : s.get? a = none := by
        by_contra hsome
        exact ha (hnames a (Bindings.mem_names_iff.2 (Option.isSome_iff_ne_none.2 hsome)))
      rw [overlay_of_not_mem ha, Subst.image_of_get?_eq_none hnone]
  · rintro ⟨η, rfl⟩
    refine ⟨substOf η σ.bound, ?_, ?_⟩
    · intro a ha
      by_contra hnot
      rw [Bindings.mem_names_iff, get?_substOf, if_neg hnot] at ha
      simp at ha
    · rw [Ty.apply_eq_inst]
      refine Ty.inst_congr fun a _ => ?_
      by_cases ha : a ∈ σ.bound
      · rw [overlay_of_mem ha]
        simp [Subst.image, get?_substOf, ha]
      · rw [overlay_of_not_mem ha]
        simp [Subst.image, get?_substOf, ha]

/-- Every scheme has an instance. -/
theorem instances_nonempty (σ : Scheme Empty) (θ : Assignment) : (σ.instances θ).Nonempty :=
  ⟨_, Ty.var, rfl⟩

/-- The instances of a scheme depend on the types of its free variables only. -/
theorem instances_congr {σ : Scheme Empty} {θ ρ : Assignment}
    (h : ∀ a ∈ σ.freeVars, θ a = ρ a) : σ.instances θ = σ.instances ρ := by
  have hbody : ∀ η : Assignment,
      σ.body.inst (overlay σ.bound η θ) = σ.body.inst (overlay σ.bound η ρ) := by
    intro η
    refine Ty.inst_congr fun a ha => ?_
    by_cases hbound : a ∈ σ.bound
    · rw [overlay_of_mem hbound, overlay_of_mem hbound]
    · rw [overlay_of_not_mem hbound, overlay_of_not_mem hbound,
        h a (mem_freeVars.2 ⟨ha, hbound⟩)]
  simp only [instances, hbody]

/-- The instances of a closed scheme are the same whatever free variables stand for. -/
theorem Closed.instances_eq {σ : Scheme Empty} (h : σ.Closed) (θ ρ : Assignment) :
    σ.instances θ = σ.instances ρ :=
  instances_congr fun a ha => absurd ha (h a)

/-- A scheme that quantifies nothing has one instance. -/
@[simp] theorem instances_mono (t : MonoTy) (θ : Assignment) :
    (Scheme.mono t).instances θ = {t.inst θ} := by
  have hnone : ∀ η : Assignment, overlay (Scheme.mono t).bound η θ = θ :=
    fun η => funext fun a => overlay_of_not_mem List.not_mem_nil
  ext u
  simp only [instances, hnone, exists_const, Set.mem_ofPred_eq, Set.mem_singleton_iff]
  exact eq_comm

@[simp] theorem mem_freeVars_mono {t : MonoTy} {a : String} :
    a ∈ (Scheme.mono t).freeVars ↔ a ∈ t.freeVars := by
  simp [mem_freeVars, mono]

/-- Instantiating an instance further gives an instance under the further assignment. -/
theorem inst_mem_instances {σ : Scheme Empty} {θ ρ : Assignment} {t : MonoTy}
    (h : t ∈ σ.instances θ) : t.inst ρ ∈ σ.instances fun a => (θ a).inst ρ := by
  obtain ⟨η, rfl⟩ := h
  refine ⟨fun a => (η a).inst ρ, ?_⟩
  rw [Ty.inst_inst]
  refine Ty.inst_congr fun a _ => ?_
  by_cases ha : a ∈ σ.bound
  · rw [overlay_of_mem ha, overlay_of_mem ha]
  · rw [overlay_of_not_mem ha, overlay_of_not_mem ha]

/-! ## Substitution in schemes -/

/-- The body of a substituted scheme. -/
theorem body_apply (σ : Scheme Empty) (s : Subst Empty) :
    (σ.apply s).body = σ.body.inst (overlay σ.bound .var s.image) := by
  change σ.body.apply (s.without σ.bound) = _
  rw [Ty.apply_eq_inst, Subst.image_without]

/-- A substitution captures nothing in a scheme when it puts no quantified variable in for
a free one. -/
def CaptureFree (σ : Scheme Empty) (s : Subst Empty) : Prop :=
  ∀ a ∈ σ.freeVars, ∀ b ∈ (s.image a).freeVars, b ∉ σ.bound

/-- The free variables of a substituted scheme come from the images of its free
variables. -/
theorem exists_of_mem_freeVars_apply {σ : Scheme Empty} {s : Subst Empty} {b : String}
    (h : b ∈ (σ.apply s).freeVars) : ∃ a ∈ σ.freeVars, b ∈ (s.image a).freeVars := by
  have hmem : b ∈ (σ.apply s).body.freeVars ∧ b ∉ σ.bound := mem_freeVars.1 h
  obtain ⟨hb, hbound⟩ := hmem
  rw [body_apply, Ty.mem_freeVars_inst] at hb
  obtain ⟨a, ha, hba⟩ := hb
  by_cases hab : a ∈ σ.bound
  · rw [overlay_of_mem hab, Ty.mem_freeVars_var] at hba
    exact absurd (hba ▸ hab) hbound
  · rw [overlay_of_not_mem hab] at hba
    exact ⟨a, mem_freeVars.2 ⟨ha, hab⟩, hba⟩

/-- Where nothing is captured, all variables of the images of the free variables are free
in the substituted scheme. -/
theorem CaptureFree.mem_freeVars_apply {σ : Scheme Empty} {s : Subst Empty}
    (h : σ.CaptureFree s) {a b : String} (ha : a ∈ σ.freeVars)
    (hb : b ∈ (s.image a).freeVars) : b ∈ (σ.apply s).freeVars := by
  obtain ⟨hbody, hbound⟩ := mem_freeVars.1 ha
  have hmem : b ∈ (σ.apply s).body.freeVars := by
    rw [body_apply, Ty.mem_freeVars_inst]
    exact ⟨a, hbody, by rwa [overlay_of_not_mem hbound]⟩
  exact mem_freeVars.2 ⟨hmem, h a ha b hb⟩

/-- Nothing is captured in a closed scheme. -/
theorem Closed.captureFree {σ : Scheme Empty} (h : σ.Closed) (s : Subst Empty) :
    σ.CaptureFree s :=
  fun a ha => absurd ha (h a)

/-- A closed scheme stays closed. -/
theorem Closed.apply {σ : Scheme Empty} (h : σ.Closed) (s : Subst Empty) :
    (σ.apply s).Closed := by
  intro b hb
  obtain ⟨a, ha, -⟩ := exists_of_mem_freeVars_apply hb
  exact h a ha

/-- A substitution that captures nothing keeps the instances of a scheme relative to an
assignment that does its work already. -/
theorem instances_apply {σ : Scheme Empty} {s : Subst Empty} {θ : Assignment}
    (hcapture : σ.CaptureFree s) (habs : ∀ a ∈ σ.freeVars, (s.image a).inst θ = θ a) :
    (σ.apply s).instances θ = σ.instances θ := by
  have hbody : ∀ η : Assignment,
      (σ.apply s).body.inst (overlay σ.bound η θ) = σ.body.inst (overlay σ.bound η θ) := by
    intro η
    rw [body_apply, Ty.inst_inst]
    refine Ty.inst_congr fun a ha => ?_
    by_cases hbound : a ∈ σ.bound
    · rw [overlay_of_mem hbound, Ty.inst_var]
    · have hfree : a ∈ σ.freeVars := mem_freeVars.2 ⟨ha, hbound⟩
      rw [overlay_of_not_mem hbound, overlay_of_not_mem hbound, ← habs a hfree]
      exact Ty.inst_congr fun b hb => overlay_of_not_mem (hcapture a hfree b hb)
  change {t | ∃ η : Assignment, (σ.apply s).body.inst (overlay σ.bound η θ) = t} = _
  simp only [hbody, instances]

/-! ## Fresh copies -/

/-- There are names for everything that avoid given names. -/
theorem exists_fresh_names (avoid : List String) :
    ∃ fresh back : String → String, (∀ a, back (fresh a) = a) ∧ ∀ a, fresh a ∉ avoid := by
  -- a fresh name is longer than all names that are to be avoided together
  let width := (avoid.map String.toList).flatten.length + 1
  refine ⟨fun a => String.ofList (List.replicate width 'x' ++ a.toList),
    fun a => String.ofList (a.toList.drop width), ?_, ?_⟩
  · intro a
    simp [String.toList_ofList]
  · intro a ha
    have hsub := List.sublist_flatten_of_mem (List.mem_map_of_mem (f := String.toList) ha)
    have hle := hsub.length_le
    simp only [String.toList_ofList, List.length_append, List.length_replicate] at hle
    omega

/-- A scheme whose free variables have the types of an assignment, with other names for
its quantified variables. -/
def copy (σ : Scheme Empty) (θ : Assignment) (fresh : String → String) : Scheme Empty where
  bound := σ.bound.map fresh
  body := σ.body.inst (overlay σ.bound (fun a => .var (fresh a)) θ)

/-- A scheme under an assignment is no more general than a copy of it whose quantified
variables avoid given names. -/
theorem exists_fresh_copy (σ : Scheme Empty) (θ : Assignment) (avoid : List String) :
    ∃ fresh : String → String, (∀ a, fresh a ∉ avoid) ∧
      σ.instances θ ⊆ (σ.copy θ fresh).instances Ty.var := by
  let taken := σ.body.freeVars.toList.flatMap fun a => (θ a).freeVars.toList
  obtain ⟨fresh, back, hback, hfresh⟩ := exists_fresh_names (avoid ++ taken)
  refine ⟨fresh, fun a ha => hfresh a (List.mem_append_left _ ha), ?_⟩
  rintro t ⟨η, rfl⟩
  refine ⟨fun b => η (back b), ?_⟩
  rw [copy, Ty.inst_inst]
  refine Ty.inst_congr fun a ha => ?_
  by_cases hbound : a ∈ σ.bound
  · rw [overlay_of_mem hbound, overlay_of_mem hbound, Ty.inst_var,
      overlay_of_mem (List.mem_map_of_mem hbound), hback]
  · rw [overlay_of_not_mem hbound, overlay_of_not_mem hbound]
    -- the types of the free variables do not mention the new names
    have hfix : (θ a).inst (overlay (σ.bound.map fresh) (fun b => η (back b)) .var) =
        (θ a).inst Ty.var := by
      refine Ty.inst_congr fun b hb => overlay_of_not_mem fun hmem => ?_
      obtain ⟨d, -, rfl⟩ := List.mem_map.1 hmem
      exact hfresh d (List.mem_append_right _ (List.mem_flatMap.2 ⟨a, ha, hb⟩))
    rw [hfix, Ty.inst_self]

end Scheme

/-! ## The uses that an environment allows -/

/-- More uses of one name and of the other names are more uses of all names. -/
theorem update_subset_update {G H : String → Set MonoTy} {x : String} {S T : Set MonoTy}
    (hGH : ∀ y, G y ⊆ H y) (hST : S ⊆ T) (y : String) :
    Function.update G x S y ⊆ Function.update H x T y := by
  by_cases h : y = x
  · subst h
    rwa [Function.update_self, Function.update_self]
  · rw [Function.update_of_ne h, Function.update_of_ne h]
    exact hGH y

namespace Env

/-- The types at which an environment lets each name be used when its free variables have
the types of an assignment. -/
def uses (Γ : Env Empty) (θ : Assignment) : String → Set MonoTy :=
  fun x => {t | ∃ σ, Γ.get? x = some σ ∧ t ∈ σ.instances θ}

/-- A name may be used at the instances of its scheme. -/
theorem uses_of_get? {Γ : Env Empty} {x : String} {σ : Scheme Empty} (θ : Assignment)
    (h : Γ.get? x = some σ) : Γ.uses θ x = σ.instances θ := by
  ext t
  simp [uses, h]

/-- A new scheme for a name changes the uses of this name only. -/
@[simp] theorem uses_insert (Γ : Env Empty) (x : String) (σ : Scheme Empty) (θ : Assignment) :
    Env.uses (Γ.insert x σ) θ = Function.update (Γ.uses θ) x (σ.instances θ) := by
  funext y
  by_cases h : y = x
  · subst h
    rw [Function.update_self]
    exact uses_of_get? θ (by simp)
  · rw [Function.update_of_ne h]
    simp [uses, h]

/-- The uses that an environment allows depend on the types of its free variables only. -/
theorem uses_congr {Γ : Env Empty} {θ ρ : Assignment} (h : ∀ a ∈ Γ.freeVars, θ a = ρ a) :
    Γ.uses θ = Γ.uses ρ := by
  funext x
  cases hx : Γ.get? x with
  | none => simp [uses, hx]
  | some σ =>
      rw [uses_of_get? θ hx, uses_of_get? ρ hx]
      exact Scheme.instances_congr fun a ha => h a (mem_freeVars.2 ⟨x, σ, hx, ha⟩)

/-- An environment is closed when all its schemes are. -/
def Closed (Γ : Env Empty) : Prop :=
  ∀ x σ, Γ.get? x = some σ → σ.Closed

/-- No variable is free in a closed environment. -/
theorem Closed.not_mem_freeVars {Γ : Env Empty} (h : Γ.Closed) (a : String) :
    ¬ a ∈ Γ.freeVars := by
  rw [mem_freeVars]
  rintro ⟨x, σ, hx, ha⟩
  exact h x σ hx a ha

/-- A closed environment allows the same uses under every assignment. -/
theorem Closed.uses_eq {Γ : Env Empty} (h : Γ.Closed) (θ ρ : Assignment) :
    Γ.uses θ = Γ.uses ρ :=
  uses_congr fun a ha => absurd ha (h.not_mem_freeVars a)

/-- Without names nothing is free. -/
theorem closed_empty : Closed ∅ := by
  intro x σ h
  simp at h

/-- An environment stays closed when a name is bound to a closed scheme. -/
theorem Closed.insert {Γ : Env Empty} (h : Γ.Closed) {σ : Scheme Empty} (hσ : σ.Closed)
    (x : String) : Env.Closed (Γ.insert x σ) := by
  intro y τ hy
  rw [Bindings.get?_insert] at hy
  split_ifs at hy with heq
  · cases hy
    exact hσ
  · exact h y τ hy

/-- An environment with one scheme is closed if all variables of the scheme are bound. -/
theorem closed_single {σ : Scheme Empty} (h : ∀ a ∈ σ.body.freeVars, a ∈ σ.bound) (x : String) :
    Closed (Bindings.insert ∅ x σ) :=
  closed_empty.insert (Scheme.closed_iff.2 h) x

end Env

/-! ## Principal schemes in normal form -/

/-- Renaming by a table that has all variables of a type. -/
theorem Scheme.rename_eq (σ : Scheme Empty) (table : List (String × String)) {t : MonoTy}
    (h : ∀ a ∈ t.freeVars, (table.lookup a).isSome) :
    σ.rename table t = .ok (t.inst fun a => .var ((table.lookup a).getD a)) := by
  induction t using Ty.monoInduction with
  | var name =>
      obtain ⟨renamed, hname⟩ := Option.isSome_iff_exists.1 (h name (by simp))
      simp [Scheme.rename, hname]
  | con name => rfl
  | fn argument result ih₁ ih₂ =>
      have h₁ := ih₁ fun a ha => h a (by simp [ha])
      have h₂ := ih₂ fun a ha => h a (by simp [ha])
      simp only [Scheme.rename, h₁, h₂]
      rfl
  | list element ih =>
      simp only [Scheme.rename, ih h]
      rfl
  | pair first second ih₁ ih₂ =>
      have h₁ := ih₁ fun a ha => h a (by simp [ha])
      have h₂ := ih₂ fun a ha => h a (by simp [ha])
      simp only [Scheme.rename, h₁, h₂]
      rfl

/-- Each name has a letter. -/
private theorem lookup_zip_isSome {names letters : List String} {a : String}
    (hlength : names.length = letters.length) (h : a ∈ names) :
    ∃ b ∈ letters, (names.zip letters).lookup a = some b := by
  induction names generalizing letters with
  | nil => simp at h
  | cons name rest ih =>
      cases letters with
      | nil => simp at hlength
      | cons letter letters =>
          by_cases heq : a = name
          · subst heq
            exact ⟨letter, by simp, by simp⟩
          · have hbeq : (a == name) = false := by simp [heq]
            have hrest : a ∈ rest := by simpa [heq] using h
            obtain ⟨b, hb, hlookup⟩ := ih (by simpa using hlength) hrest
            refine ⟨b, List.mem_cons_of_mem _ hb, ?_⟩
            rw [List.zip_cons_cons, List.lookup_cons, hbeq]
            exact hlookup

/-- Letters that are different are taken back to the names. -/
private theorem lookup_zip_lookup_zip {names letters : List String} {a b : String}
    (hletters : letters.Nodup) (hlength : names.length = letters.length)
    (h : (names.zip letters).lookup a = some b) :
    (letters.zip names).lookup b = some a := by
  induction names generalizing letters with
  | nil => simp at h
  | cons name rest ih =>
      cases letters with
      | nil => simp at hlength
      | cons letter letters =>
          by_cases heq : a = name
          · subst heq
            have hb : letter = b := by simpa using h
            simp [hb]
          · have hbeq : (a == name) = false := by simp [heq]
            rw [List.zip_cons_cons, List.lookup_cons, hbeq] at h
            obtain ⟨hnot, hnodup⟩ := List.nodup_cons.1 hletters
            have hbmem : b ∈ letters := by
              obtain ⟨before, after, hsplit, -⟩ := List.lookup_eq_some_iff.1 h
              have hpair : (a, b) ∈ rest.zip letters := by
                rw [hsplit]
                simp
              exact (List.of_mem_zip hpair).2
            have hne : b ≠ letter := fun heq => hnot (heq ▸ hbmem)
            have hbeq' : (b == letter) = false := by simp [hne]
            rw [List.zip_cons_cons, List.lookup_cons, hbeq']
            exact ih hnodup (by simpa using hlength) h

namespace Ty

/-- The names that the variables of a type get in its normal form. -/
def letterTable (t : MonoTy) : List (String × String) :=
  t.freeVars.toList.zip (letterNames t.freeVars.toList.length)

/-- Each free variable of a type has a letter. -/
theorem exists_lookup_letterTable {t : MonoTy} {a : String} (h : a ∈ t.freeVars) :
    ∃ b ∈ letterNames t.freeVars.toList.length, t.letterTable.lookup a = some b :=
  lookup_zip_isSome (by simp) h

end Ty

/-- A scheme quantifies exactly the variables of its body, in whatever order and however
often. -/
def Scheme.QuantifiesBody (σ : Scheme Empty) : Prop :=
  ∀ a, a ∈ σ.bound ↔ a ∈ σ.body.freeVars

/-- The normal form of a scheme has letters for the variables of the body, whatever order the
scheme quantifies them in. -/
theorem Scheme.QuantifiesBody.normalize_eq {σ : Scheme Empty} (h : σ.QuantifiesBody) :
    σ.normalize = .ok {
      bound := letterNames σ.body.freeVars.toList.length
      body := σ.body.inst fun a => .var ((σ.body.letterTable.lookup a).getD a) } := by
  have horder : σ.boundInOrder = σ.body.freeVars.toList := by
    refine List.filter_eq_self.2 fun a ha => ?_
    exact List.contains_iff_mem.2 ((h a).2 ha)
  have hfind : (σ.bound.find? fun v => !σ.body.freeVars.toList.contains v) = none := by
    rw [List.find?_eq_none]
    intro a ha
    have hbody : a ∈ σ.body.freeVars.toList := (h a).1 ha
    simp [hbody]
  have hrename : σ.rename σ.body.letterTable σ.body =
      .ok (σ.body.inst fun a => .var ((σ.body.letterTable.lookup a).getD a)) :=
    Scheme.rename_eq _ _ fun a ha => by
      obtain ⟨b, -, hb⟩ := Ty.exists_lookup_letterTable ha
      exact Option.isSome_iff_exists.2 ⟨b, hb⟩
  rw [Ty.letterTable] at hrename
  simp only [Scheme.normalize, horder, hfind, hrename]
  rfl

namespace Ty

/-- Without an environment all variables of a type are quantified. -/
theorem bound_generalize_empty (t : MonoTy) :
    (t.generalize ∅).bound = t.freeVars.toList := by
  have hall : ∀ a ∈ t.freeVars.toList,
      (!(Env.freeVars (∅ : Env Empty)).contains a) = true := by
    intro a _
    rfl
  exact List.filter_eq_self.2 hall

/-- At the outermost level all variables of a type are quantified. -/
theorem quantifiesBody_generalize_empty (t : MonoTy) : (t.generalize ∅).QuantifiesBody := by
  intro a
  rw [bound_generalize_empty]
  exact OrderedSet.mem_toList

/-- The principal scheme of a type has letters for the variables of the type. -/
theorem closeOver_eq (t : MonoTy) :
    t.closeOver = .ok {
      bound := letterNames t.freeVars.toList.length
      body := t.inst fun a => .var ((t.letterTable.lookup a).getD a) } :=
  t.quantifiesBody_generalize_empty.normalize_eq

/-- Every type has a principal scheme: a closed one of which exactly its instances are
instances. -/
theorem exists_closeOver (t : MonoTy) :
    ∃ σ, t.closeOver = .ok σ ∧ σ.Closed ∧ ∀ u, σ.Instance u ↔ ∃ θ, t.inst θ = u := by
  refine ⟨_, closeOver_eq t, ?_, ?_⟩
  · rw [Scheme.closed_iff]
    intro b hb
    obtain ⟨a, ha, hba⟩ := mem_freeVars_inst.1 hb
    obtain ⟨d, hd, hlookup⟩ := exists_lookup_letterTable ha
    rw [hlookup, Option.getD_some, mem_freeVars_var] at hba
    exact hba ▸ hd
  · intro u
    rw [Scheme.instance_iff]
    constructor
    · rintro ⟨η, rfl⟩
      exact ⟨_, (inst_inst _ _ t).symm⟩
    · rintro ⟨θ, rfl⟩
      -- a letter gets the type of the variable that it stands for
      let letters := letterNames t.freeVars.toList.length
      refine ⟨fun b => θ (((letters.zip t.freeVars.toList).lookup b).getD b), ?_⟩
      rw [inst_inst]
      refine inst_congr fun a ha => ?_
      obtain ⟨b, hb, hlookup⟩ := exists_lookup_letterTable ha
      have hback : (letters.zip t.freeVars.toList).lookup b = some a :=
        lookup_zip_lookup_zip (nodup_letterNames _) (length_letterNames _).symm hlookup
      rw [hlookup, Option.getD_some, inst_var, overlay_of_mem hb, hback, Option.getD_some]

end Ty

end LetPoly
