import LetPoly.Proofs.Renaming
import Mathlib.Algebra.Group.End
import Mathlib.Data.Fintype.Sum

/-!
# Normal forms

A scheme has a normal form when it quantifies exactly the variables of its body.  The normal
form is canonical: it forgets the names of the variables and the order in which they are
quantified, and nothing else.

Main results:

- Theorem {lit}`Ty.toList_freeVars`: free variables are listed in order of first occurrence.
- Theorem {lit}`Ty.alphaEq_of_inst_inst`: types that are instances of each other are the same
  up to renaming.
- Theorem {lit}`Ty.closeOver_eq_iff`: two types have the same principal scheme exactly when
  they are the same up to renaming.
- Theorem {lit}`Scheme.normalize_canonical`: which schemes have a normal form, what it looks
  like, and when two schemes have the same one.
-/

namespace LetPoly

/-! ## Order of first occurrence -/

private theorem eraseDups_filter {names : List String} (p : String → Bool) :
    (names.filter p).eraseDups = names.eraseDups.filter p := by
  -- the rest of a list without copies is that of a shorter list
  induction hn : names.length using Nat.strong_induction_on generalizing names with
  | _ n ih =>
      cases names with
      | nil => rfl
      | cons a rest =>
          have hle := List.length_filter_le (fun b => !b == a) rest
          have hshort : (rest.filter fun b => !b == a).length < n := by
            simp only [List.length_cons] at hn
            omega
          have hrest := ih _ hshort rfl
          by_cases hp : p a
          · rw [List.filter_cons_of_pos hp, List.eraseDups_cons, List.eraseDups_cons,
              List.filter_cons_of_pos hp, ← hrest, List.filter_comm]
          · rw [List.filter_cons_of_neg hp, List.eraseDups_cons, List.filter_cons_of_neg hp,
              ← hrest, List.filter_filter]
            congr 1
            refine List.filter_congr fun b _ => ?_
            by_cases hba : b = a
            · subst hba
              simp [hp]
            · simp [hba]

namespace Ty

/-- The variables of a type as they occur from left to right. -/
def occurrences : MonoTy → List String
  | var name => [name]
  | con _ => []
  | fn argument result => argument.occurrences ++ result.occurrences
  | list element => element.occurrences
  | pair first second => first.occurrences ++ second.occurrences
  | quantified mark _ _ => mark.elim

private theorem toList_union_eq_eraseDups {s t : OrderedSet String} {names others : List String}
    (hs : s.toList = names.eraseDups) (ht : t.toList = others.eraseDups) :
    (s ∪ t).toList = (names ++ others).eraseDups := by
  change s.toList ++ t.toList.filter (fun a => !s.contains a) = _
  rw [List.eraseDups_append, List.removeAll, eraseDups_filter, hs, ht]
  congr 1
  refine List.filter_congr fun a _ => ?_
  have hmem : a ∈ s ↔ a ∈ names := by
    rw [← OrderedSet.mem_toList, hs, List.mem_eraseDups]
  simp [OrderedSet.contains, hmem]

/-- The free variables of a type are listed in order of first occurrence. -/
theorem toList_freeVars (t : MonoTy) : t.freeVars.toList = t.occurrences.eraseDups := by
  induction t using monoInduction with
  | var name => rfl
  | con name => rfl
  | fn argument result ih₁ ih₂ => exact toList_union_eq_eraseDups ih₁ ih₂
  | list element ih => exact ih
  | pair first second ih₁ ih₂ => exact toList_union_eq_eraseDups ih₁ ih₂

/-! ## Types up to renaming -/

/-- Two types are the same up to the names of their variables: a renaming that is one-to-one
on the variables of the first one turns it into the second. -/
def AlphaEq (t u : MonoTy) : Prop :=
  ∃ f : String → String, Set.InjOn f {a | a ∈ t.freeVars} ∧ t.relabel f = u

/-- A renaming that is one-to-one on the variables of a type goes over to a permutation of
all names. -/
theorem exists_perm_of_injOn {f : String → String} {t : MonoTy}
    (hf : Set.InjOn f {a | a ∈ t.freeVars}) :
    ∃ π : Equiv.Perm String, t.relabel π = t.relabel f := by
  -- the names to be permuted are the variables before and after
  let names : Finset String :=
    t.freeVars.toList.toFinset ∪ (t.freeVars.toList.map f).toFinset
  have hold : ∀ {a}, a ∈ t.freeVars → a ∈ names := by
    intro a ha
    exact Finset.mem_union_left _ (List.mem_toFinset.2 ha)
  have hnew : ∀ {a}, a ∈ t.freeVars → f a ∈ names := by
    intro a ha
    exact Finset.mem_union_right _ (List.mem_toFinset.2 (List.mem_map_of_mem ha))
  let vars : Set names := {a | a.1 ∈ t.freeVars}
  have hmaps : vars.MapsTo (fun a : names => f a.1) names := fun a ha => hnew ha
  have hinj : vars.InjOn (fun a : names => f a.1) := fun a ha b hb heq => Subtype.ext (hf ha hb heq)
  obtain ⟨π, hπ⟩ := hmaps.exists_equiv_extend_of_card_eq (Fintype.card_coe names) hinj
  refine ⟨Equiv.Perm.ofSubtype π, inst_congr fun a ha => ?_⟩
  rw [Equiv.Perm.ofSubtype_apply_of_mem π (hold ha), hπ ⟨a, hold ha⟩ ha]

theorem alphaEq_iff_exists_perm {t u : MonoTy} :
    t.AlphaEq u ↔ ∃ π : Equiv.Perm String, t.relabel π = u := by
  constructor
  · rintro ⟨f, hf, rfl⟩
    exact exists_perm_of_injOn hf
  · rintro ⟨π, rfl⟩
    exact ⟨π, π.injective.injOn, rfl⟩

theorem AlphaEq.symm {t u : MonoTy} (h : t.AlphaEq u) : u.AlphaEq t := by
  obtain ⟨π, rfl⟩ := alphaEq_iff_exists_perm.1 h
  exact alphaEq_iff_exists_perm.2
    ⟨π.symm, relabel_relabel_of_leftInverse π.symm_apply_apply t⟩

theorem AlphaEq.trans {t u v : MonoTy} (h : t.AlphaEq u) (h' : u.AlphaEq v) : t.AlphaEq v := by
  obtain ⟨π, rfl⟩ := alphaEq_iff_exists_perm.1 h
  obtain ⟨ρ, rfl⟩ := alphaEq_iff_exists_perm.1 h'
  refine alphaEq_iff_exists_perm.2 ⟨π.trans ρ, ?_⟩
  rw [relabel, relabel, relabel, inst_inst]
  rfl

/-- Types that are instances of each other are the same up to renaming. -/
theorem alphaEq_of_inst_inst {t u : MonoTy} {θ ρ : Assignment} (hu : t.inst θ = u)
    (ht : u.inst ρ = t) : t.AlphaEq u := by
  -- going there and back leaves every variable alone, so it is a variable in between
  have hback : ∀ a ∈ t.freeVars, (θ a).inst ρ = var a := by
    refine inst_eq_inst_iff.1 ?_
    rw [← inst_inst, hu, ht, inst_self]
  have hvar : ∀ a ∈ t.freeVars, ∃ b, θ a = var b ∧ ρ b = var a := by
    intro a ha
    have heq := hback a ha
    cases hθ : θ a with
    | var b =>
        rw [hθ] at heq
        exact ⟨b, rfl, heq⟩
    | quantified mark _ _ => exact mark.elim
    | _ =>
        rw [hθ] at heq
        cases heq
  choose! f hf hρ using hvar
  refine ⟨f, ?_, ?_⟩
  · intro a ha b hb heq
    have hvars : (var a : MonoTy) = var b := by rw [← hρ a ha, ← hρ b hb, heq]
    cases hvars
    rfl
  · rw [← hu]
    exact inst_congr fun a ha => (hf a ha).symm

/-! ## Normal forms of types -/

private theorem map_lookup_zip {names letters : List String} (hnames : names.Nodup)
    (hlength : names.length = letters.length) :
    (names.map fun a => ((names.zip letters).lookup a).getD a) = letters := by
  induction names generalizing letters with
  | nil => exact (List.length_eq_zero_iff.1 hlength.symm).symm
  | cons name rest ih =>
      cases letters with
      | nil => simp at hlength
      | cons letter letters =>
          obtain ⟨hnot, hrest⟩ := List.nodup_cons.1 hnames
          have htail : ∀ a ∈ rest,
              (((name :: rest).zip (letter :: letters)).lookup a).getD a =
                ((rest.zip letters).lookup a).getD a := by
            intro a ha
            have hne : a ≠ name := fun heq => hnot (heq ▸ ha)
            have hbeq : (a == name) = false := by simp [hne]
            rw [List.zip_cons_cons, List.lookup_cons, hbeq]
          rw [List.map_cons, List.map_congr_left htail, ih hrest (by simpa using hlength)]
          simp

/-- The principal scheme of a type is its generalization with other names, which are letters
in order of first occurrence. -/
theorem exists_closeOver_eq_relabel (t : MonoTy) :
    ∃ g, Set.InjOn g {a | a ∈ t.freeVars} ∧
      t.freeVars.toList.map g = letterNames t.freeVars.toList.length ∧
      t.closeOver = .ok ((t.generalize ∅).relabel g) := by
  let g := fun a => (t.letterTable.lookup a).getD a
  have hletters : t.freeVars.toList.map g = letterNames t.freeVars.toList.length :=
    map_lookup_zip t.freeVars.nodup (by simp)
  refine ⟨g, ?_, hletters, ?_⟩
  · refine List.inj_on_of_nodup_map ?_
    rw [hletters]
    exact nodup_letterNames _
  · rw [closeOver_eq, Scheme.relabel, bound_generalize_empty, hletters]
    rfl

/-- Types that are the same up to renaming have the same principal scheme. -/
theorem AlphaEq.closeOver_eq {t u : MonoTy} (h : t.AlphaEq u) : t.closeOver = u.closeOver := by
  obtain ⟨π, rfl⟩ := alphaEq_iff_exists_perm.1 h
  exact (closeOver_relabel π.toEmbedding t).symm

section Principal

variable {t : MonoTy} {ν : Scheme Empty} (h : t.closeOver = .ok ν)

include h

/-- The body of a principal scheme is the type with other names. -/
theorem alphaEq_body_of_closeOver : t.AlphaEq ν.body := by
  obtain ⟨g, hg, -, hclose⟩ := t.exists_closeOver_eq_relabel
  rw [hclose] at h
  cases h
  exact ⟨g, hg, rfl⟩

/-- A principal scheme quantifies the variables of its body in their order. -/
theorem bound_of_closeOver : ν.bound = ν.body.freeVars.toList := by
  obtain ⟨g, hg, -, hclose⟩ := t.exists_closeOver_eq_relabel
  rw [hclose] at h
  cases h
  rw [Scheme.relabel, bound_generalize_empty]
  exact (freeVars_relabel hg).symm

/-- A principal scheme quantifies letters. -/
theorem exists_bound_eq_letterNames : ∃ count, ν.bound = letterNames count := by
  obtain ⟨g, -, hletters, hclose⟩ := t.exists_closeOver_eq_relabel
  rw [hclose] at h
  cases h
  rw [Scheme.relabel, bound_generalize_empty]
  exact ⟨_, hletters⟩

end Principal

/-- Two types have the same principal scheme exactly when they are the same up to
renaming. -/
theorem closeOver_eq_iff {t u : MonoTy} {ν ξ : Scheme Empty} (ht : t.closeOver = .ok ν)
    (hu : u.closeOver = .ok ξ) : ν = ξ ↔ t.AlphaEq u := by
  constructor
  · intro heq
    have htbody := alphaEq_body_of_closeOver ht
    rw [heq] at htbody
    exact htbody.trans (alphaEq_body_of_closeOver hu).symm
  · intro h
    rw [h.closeOver_eq, hu] at ht
    cases ht
    rfl

end Ty

/-! ## Normal forms of schemes -/

/-- The normal form of a scheme is that of its body. -/
theorem Scheme.QuantifiesBody.normalize_eq_closeOver {σ : Scheme Empty}
    (h : σ.QuantifiesBody) : σ.normalize = σ.body.closeOver := by
  rw [h.normalize_eq, Ty.closeOver_eq]

private theorem lookup_zip_eq_none_iff {names letters : List String} {a : String}
    (hlength : names.length = letters.length) :
    (names.zip letters).lookup a = none ↔ a ∉ names := by
  have hnames : (names.zip letters).map Prod.fst = names := List.map_fst_zip hlength.le
  have hmem : a ∈ names ↔ ∃ entry ∈ names.zip letters, entry.1 = a := by
    rw [← List.mem_map, hnames]
  rw [List.lookup_eq_none_iff, hmem]
  constructor
  · intro hall hex
    obtain ⟨entry, hentry, heq⟩ := hex
    have hne := hall entry hentry
    simp [heq] at hne
  · intro hnot entry hentry
    have hne : entry.1 ≠ a := fun heq => hnot ⟨entry, hentry, heq⟩
    simpa using hne.symm

namespace Scheme

/-- A table lacks a variable of a type. -/
def Lacks (table : List (String × String)) (t : MonoTy) : Prop :=
  ∃ a ∈ t.freeVars, table.lookup a = none

/-- Renaming a type stops at a variable that the table lacks. -/
def StopsAt (σ : Scheme Empty) (table : List (String × String)) (t : MonoTy) (a : String) :
    Prop :=
  a ∈ t.freeVars ∧ table.lookup a = none ∧
    σ.rename table t = .error (.broken (.freeVariable σ a))

/-- Two parts are renamed one after the other, and renaming stops in the first part that has
a variable which the table lacks. -/
theorem exists_stop_of_parts {σ : Scheme Empty} {table : List (String × String)}
    {t u whole : MonoTy} {make : MonoTy → MonoTy → MonoTy}
    (hvars : ∀ a, a ∈ whole.freeVars ↔ a ∈ t.freeVars ∨ a ∈ u.freeVars)
    (hrename : σ.rename table whole = do
      let t' ← σ.rename table t
      let u' ← σ.rename table u
      return make t' u')
    (iht : Lacks table t → ∃ a, σ.StopsAt table t a)
    (ihu : Lacks table u → ∃ a, σ.StopsAt table u a) (h : Lacks table whole) :
    ∃ a, σ.StopsAt table whole a := by
  by_cases ht : Lacks table t
  · obtain ⟨a, ha, hnone, herror⟩ := iht ht
    refine ⟨a, (hvars a).2 (Or.inl ha), hnone, ?_⟩
    rw [hrename, herror]
    rfl
  · have hall : ∀ a ∈ t.freeVars, (table.lookup a).isSome := by
      intro a ha
      rw [Option.isSome_iff_ne_none]
      exact fun hnone => ht ⟨a, ha, hnone⟩
    have hu : Lacks table u := by
      obtain ⟨a, ha, hnone⟩ := h
      rcases (hvars a).1 ha with ha | ha
      · exact absurd ⟨a, ha, hnone⟩ ht
      · exact ⟨a, ha, hnone⟩
    obtain ⟨a, ha, hnone, herror⟩ := ihu hu
    refine ⟨a, (hvars a).2 (Or.inr ha), hnone, ?_⟩
    rw [hrename, rename_eq σ table hall, herror]
    rfl

/-- Renaming stops when the table lacks a variable. -/
theorem exists_stop (σ : Scheme Empty) {table : List (String × String)} {t : MonoTy}
    (h : Lacks table t) : ∃ a, σ.StopsAt table t a := by
  induction t using Ty.monoInduction with
  | var name =>
      obtain ⟨a, ha, hnone⟩ := h
      refine ⟨a, ha, hnone, ?_⟩
      rw [Ty.mem_freeVars_var] at ha
      subst ha
      simp [rename, hnone]
  | con name => simp [Lacks] at h
  | fn argument result ih₁ ih₂ =>
      exact exists_stop_of_parts (fun _ => Ty.mem_freeVars_fn) rfl ih₁ ih₂ h
  | list element ih =>
      obtain ⟨a, ha, hnone, herror⟩ := ih h
      refine ⟨a, ha, hnone, ?_⟩
      rw [rename, herror]
      rfl
  | pair first second ih₁ ih₂ =>
      exact exists_stop_of_parts (fun _ => Ty.mem_freeVars_pair) rfl ih₁ ih₂ h

/-- A fault that names a variable which a scheme quantifies without need, or fails to
quantify. -/
inductive Misquantifies (σ : Scheme Empty) : Fault Empty → Prop where
  /-- A quantified variable does not occur in the body. -/
  | unused {a : String} (hbound : a ∈ σ.bound) (hbody : ¬ a ∈ σ.body.freeVars) :
      Misquantifies σ (.unusedVariable σ a)
  /-- A variable of the body is not quantified. -/
  | free {a : String} (hbody : a ∈ σ.body.freeVars) (hbound : a ∉ σ.bound) :
      Misquantifies σ (.freeVariable σ a)

/-- A scheme that does not quantify exactly the variables of its body has no normal form. -/
theorem exists_normalize_eq_error {σ : Scheme Empty} (h : ¬ σ.QuantifiesBody) :
    ∃ fault, σ.normalize = .error (.broken fault) ∧ σ.Misquantifies fault := by
  have hmem : ∀ a, a ∈ σ.boundInOrder ↔ a ∈ σ.body.freeVars ∧ a ∈ σ.bound := by
    intro a
    rw [boundInOrder, List.mem_filter, List.contains_iff_mem, OrderedSet.mem_toList]
  cases hfind : σ.bound.find? fun v => !σ.boundInOrder.contains v with
  | some a =>
      have hbound := List.mem_of_find?_eq_some hfind
      have hnot : a ∉ σ.boundInOrder := by simpa using List.find?_some hfind
      rw [hmem] at hnot
      refine ⟨.unusedVariable σ a, ?_, .unused hbound fun hbody => hnot ⟨hbody, hbound⟩⟩
      simp only [normalize, hfind]
  | none =>
      -- all quantified variables occur, so one of the body is left without a quantifier
      have hused : ∀ a ∈ σ.bound, a ∈ σ.body.freeVars := by
        intro a ha
        have hcontains := List.find?_eq_none.1 hfind a ha
        exact ((hmem a).1 (by simpa using hcontains)).1
      have hfree : ∃ a ∈ σ.body.freeVars, a ∉ σ.bound := by
        by_contra hnone
        refine h fun a => ⟨hused a, fun hbody => ?_⟩
        by_contra hbound
        exact hnone ⟨a, hbody, hbound⟩
      let table := σ.boundInOrder.zip (letterNames σ.boundInOrder.length)
      have hlookup : ∀ a, table.lookup a = none ↔ a ∉ σ.boundInOrder :=
        fun a => lookup_zip_eq_none_iff (length_letterNames _).symm
      have hlacks : Lacks table σ.body := by
        obtain ⟨a, hbody, hbound⟩ := hfree
        exact ⟨a, hbody, (hlookup a).2 fun hin => hbound ((hmem a).1 hin).2⟩
      obtain ⟨a, hbody, hnone, herror⟩ := exists_stop σ hlacks
      have hbound : a ∉ σ.bound := fun hin => (hlookup a).1 hnone ((hmem a).2 ⟨hbody, hin⟩)
      refine ⟨.freeVariable σ a, ?_, .free hbody hbound⟩
      simp only [table] at herror
      simp only [normalize, hfind, herror]
      rfl

/-- A scheme is in normal form: it is closed, it quantifies the variables of its body in order
of first occurrence, and they are called by the first words over the letters. -/
structure IsNormal (ν : Scheme Empty) : Prop where
  /-- No variable is free. -/
  closed : ν.Closed
  /-- The variables are quantified in order of first occurrence. -/
  inOrder : ν.bound = ν.body.occurrences.eraseDups
  /-- The variables are the first words of all. -/
  letters : FirstLetterNames ν.bound

/-- The principal scheme of a type is in normal form. -/
theorem isNormal_of_closeOver {t : MonoTy} {ν : Scheme Empty} (h : t.closeOver = .ok ν) :
    ν.IsNormal := by
  have hbound := Ty.bound_of_closeOver h
  refine ⟨?_, ?_, ?_⟩
  · rw [closed_iff, hbound]
    exact fun a ha => ha
  · rw [hbound, Ty.toList_freeVars]
  · obtain ⟨count, hletters⟩ := Ty.exists_bound_eq_letterNames h
    rw [hletters]
    exact firstLetterNames_letterNames count

/-- A principal scheme is its own normal form. -/
theorem normalize_of_closeOver {t : MonoTy} {ν : Scheme Empty} (h : t.closeOver = .ok ν) :
    ν.normalize = .ok ν := by
  have hquantifies : ν.QuantifiesBody := by
    intro a
    rw [Ty.bound_of_closeOver h]
    exact OrderedSet.mem_toList
  rw [hquantifies.normalize_eq_closeOver, ← (Ty.alphaEq_body_of_closeOver h).closeOver_eq, h]

/-- A scheme with a normal form quantifies the variables of its body, and the normal form is
the principal scheme of the body. -/
theorem normalize_eq_ok {σ ν : Scheme Empty} (h : σ.normalize = .ok ν) :
    σ.QuantifiesBody ∧ σ.body.closeOver = .ok ν := by
  by_cases hquantifies : σ.QuantifiesBody
  · rw [hquantifies.normalize_eq_closeOver] at h
    exact ⟨hquantifies, h⟩
  · obtain ⟨fault, herror, -⟩ := exists_normalize_eq_error hquantifies
    rw [herror] at h
    cases h

/-- Normal forms are canonical.  A scheme has one exactly when it quantifies the variables of
its body, and it is a fault of the scheme if it has none.  The normal form is in normal form
and its own normal form.  Two schemes have the same one exactly when their bodies are the same
up to renaming, and so it is for the principal schemes of types, which always exist. -/
theorem normalize_canonical :
    (∀ σ : Scheme Empty, (∃ ν, σ.normalize = .ok ν) ↔ σ.QuantifiesBody) ∧
    (∀ σ : Scheme Empty, ¬ σ.QuantifiesBody →
      ∃ fault, σ.normalize = .error (.broken fault) ∧ σ.Misquantifies fault) ∧
    (∀ σ ν : Scheme Empty, σ.normalize = .ok ν → ν.IsNormal ∧ ν.normalize = .ok ν) ∧
    (∀ σ τ ν ξ : Scheme Empty, σ.normalize = .ok ν → τ.normalize = .ok ξ →
      (ν = ξ ↔ σ.body.AlphaEq τ.body)) ∧
    (∀ t u : MonoTy, ∃ ν ξ, t.closeOver = .ok ν ∧ u.closeOver = .ok ξ ∧
      (ν = ξ ↔ t.AlphaEq u)) := by
  refine ⟨?_, ?_, ?_, ?_, ?_⟩
  · intro σ
    constructor
    · intro h
      obtain ⟨ν, hν⟩ := h
      exact (normalize_eq_ok hν).1
    · intro h
      exact ⟨_, h.normalize_eq⟩
  · intro σ h
    exact exists_normalize_eq_error h
  · intro σ ν h
    have hclose := (normalize_eq_ok h).2
    exact ⟨isNormal_of_closeOver hclose, normalize_of_closeOver hclose⟩
  · intro σ τ ν ξ hσ hτ
    exact Ty.closeOver_eq_iff (normalize_eq_ok hσ).2 (normalize_eq_ok hτ).2
  · intro t u
    exact ⟨_, _, t.closeOver_eq, u.closeOver_eq, Ty.closeOver_eq_iff t.closeOver_eq u.closeOver_eq⟩

/-- The type of functions that take arguments of the named types one after the other. -/
def curried (names : List String) : MonoTy :=
  names.foldr (fun a t => .fn (.var a) t) .int

/-- A scheme whose variables already are letters, quantified in order and used backwards. -/
def backwards : Scheme Empty where
  bound := letterNames 28
  body := curried (letterNames 28).reverse

/-- The normal form of that scheme. -/
def forwards : Scheme Empty where
  bound := letterNames 28
  body := curried (letterNames 28)

/-- The same scheme with one variable quantified twice. -/
def repeated : Scheme Empty where
  bound := "ab" :: (letterNames 28).reverse
  body := curried (letterNames 28)

/-- More variables than there are letters, which trade names with each other, and a scheme
without a normal form. -/
theorem normalize_canonical_backwards :
    backwards.normalize = .ok forwards ∧ repeated.normalize = .ok forwards ∧
      forwards.IsNormal ∧ forwards.normalize = .ok forwards ∧
      backwards.body.AlphaEq repeated.body ∧
      ¬ QuantifiesBody ⟨["a"], curried ["a", "b"]⟩ ∧
      ∃ fault, normalize ⟨["a"], curried ["a", "b"]⟩ = .error (.broken fault) ∧
        Misquantifies ⟨["a"], curried ["a", "b"]⟩ fault := by
  obtain ⟨-, hfails, hnormal, hsame, -⟩ := normalize_canonical
  have hbackwards : backwards.normalize = .ok forwards := by rfl
  have hrepeated : repeated.normalize = .ok forwards := by rfl
  have hfree : ¬ QuantifiesBody ⟨["a"], curried ["a", "b"]⟩ := by
    intro h
    exact absurd ((h "b").2 (by decide)) (by decide)
  exact ⟨hbackwards, hrepeated, (hnormal _ _ hbackwards).1, (hnormal _ _ hbackwards).2,
    (hsame _ _ _ _ hbackwards hrepeated).1 rfl, hfree, hfails _ hfree⟩

end Scheme

end LetPoly
