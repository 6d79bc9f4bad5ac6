import LetPoly.Subst
import Mathlib.Data.List.Basic

/-!
# Ordered maps by their names

An ordered map is known by the list of its names and by the value of each of them.  So
two maps are compared in two steps, and each operation is described by what it does to the
list of names, besides what it does to look-up.

Main results:

- Theorem {lit}`Bindings.ext_names`: maps with the same names in the same order and the same
  values are equal.
- Theorem {lit}`Bindings.names_insert`: a new name comes last, and a bound name keeps its
  place.
-/

namespace LetPoly
namespace Bindings

variable {α β : Type}

private theorem eq_of_lookup_eq {entries entries' : List (String × α)}
    (hnames : entries.map Prod.fst = entries'.map Prod.fst)
    (hnodup : (entries.map Prod.fst).Nodup)
    (hlookup : ∀ x ∈ entries.map Prod.fst, entries.lookup x = entries'.lookup x) :
    entries = entries' := by
  induction entries generalizing entries' with
  | nil => exact (List.map_eq_nil_iff.1 hnames.symm).symm
  | cons entry rest ih =>
      obtain ⟨key, value⟩ := entry
      cases entries' with
      | nil => simp at hnames
      | cons entry' rest' =>
          obtain ⟨key', value'⟩ := entry'
          simp only [List.map_cons, List.cons.injEq] at hnames
          obtain ⟨rfl, hrest⟩ := hnames
          rw [List.map_cons, List.nodup_cons] at hnodup
          have hvalue : value = value' := by simpa using hlookup key (by simp)
          have hlater : rest = rest' := by
            refine ih hrest hnodup.2 fun x hx => ?_
            have hne : x ≠ key := fun heq => hnodup.1 (heq ▸ hx)
            have hbeq : (x == key) = false := by simp [hne]
            simpa [List.lookup_cons, hbeq] using hlookup x (List.mem_cons_of_mem _ hx)
          rw [hvalue, hlater]

/-- Maps with the same names in the same order and the same values are equal. -/
theorem ext_names {b c : Bindings α} (hnames : b.names = c.names)
    (hget : ∀ x ∈ b.names, b.get? x = c.get? x) : b = c :=
  ext_entries (eq_of_lookup_eq hnames b.nodup hget)

@[simp] theorem names_empty : (∅ : Bindings α).names = [] :=
  rfl

@[simp] theorem names_mapValues (f : α → β) (b : Bindings α) :
    (b.mapValues f).names = b.names := by
  simp [names, mapValues, Function.comp_def]

/-- The names of the second map that are new come after those of the first. -/
theorem names_merge (b c : Bindings α) :
    (b.merge c).names = b.names ++ c.names.filter fun x => !b.names.contains x := by
  simp only [names, merge, contains, List.map_append, List.map_map, Function.comp_def,
    List.filter_map]

/-- A new name comes last, and a name that is bound keeps its place. -/
theorem names_insert (b : Bindings α) (x : String) (v : α) :
    (b.insert x v).names = if x ∈ b.names then b.names else b.names ++ [x] := by
  have hsingle : (single x v).names = [x] := rfl
  rw [insert, names_merge, hsingle]
  by_cases h : x ∈ b.names
  · simp [h]
  · simp [h]

theorem mem_names_insert {b : Bindings α} {x y : String} {v : α} :
    y ∈ (b.insert x v).names ↔ y = x ∨ y ∈ b.names := by
  rw [mem_names_iff, get?_insert]
  by_cases h : y = x
  · simp [h]
  · simp [h, mem_names_iff]

theorem not_mem_names_iff {b : Bindings α} {x : String} : x ∉ b.names ↔ b.get? x = none := by
  rw [mem_names_iff]
  simp

theorem get?_insert_eq_none {b : Bindings α} {x y : String} {v : α} :
    (b.insert x v).get? y = none ↔ y ≠ x ∧ b.get? y = none := by
  rw [get?_insert]
  by_cases h : y = x
  · simp [h]
  · simp [h]

/-- The bindings of the names with a property. -/
def only (b : Bindings α) (P : String → Prop) [DecidablePred P] : Bindings α :=
  b.without (b.names.filter fun x => !P x)

@[simp] theorem get?_only (b : Bindings α) (P : String → Prop) [DecidablePred P] (x : String) :
    (b.only P).get? x = if P x then b.get? x else none := by
  rw [only, get?_without]
  by_cases hP : P x
  · simp [hP]
  · cases hx : b.get? x with
    | none => simp
    | some v => simp [hP, mem_names_iff, hx]

end Bindings

end LetPoly
