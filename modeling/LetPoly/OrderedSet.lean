/-!
# Insertion-ordered sets

A finite set that lists its elements in the order in which they were first added.  The
checker's sets of free variables are of this kind, because the order of first occurrence
decides the order of quantified variables.

Main results:

- Theorems {lit}`mem_insert`, {lit}`mem_union`, {lit}`mem_inter` and {lit}`mem_sdiff`: the
  operations have the members that their names promise.
-/

namespace LetPoly

/-- A finite set with a fixed listing of its elements. -/
structure OrderedSet (α : Type) where
  /-- The elements, in the order in which they were first added. -/
  toList : List α
  /-- No element is listed twice. -/
  nodup : toList.Nodup

namespace OrderedSet

variable {α : Type}

/-- Membership is membership in the listing. -/
instance : Membership α (OrderedSet α) where
  mem s a := a ∈ s.toList

/-- Membership read off the listing. -/
theorem mem_toList {a : α} {s : OrderedSet α} : a ∈ s.toList ↔ a ∈ s :=
  Iff.rfl

/-- Two sets are equal when they list the same elements in the same order. -/
@[ext]
theorem ext_toList {s t : OrderedSet α} (h : s.toList = t.toList) : s = t := by
  cases s
  cases t
  simp_all

/-- The empty set. -/
def empty : OrderedSet α where
  toList := []
  nodup := List.nodup_nil

instance : EmptyCollection (OrderedSet α) where
  emptyCollection := empty

instance : Inhabited (OrderedSet α) where
  default := empty

/-- The set of one element. -/
def singleton (a : α) : OrderedSet α where
  toList := [a]
  nodup := by simp

/-- The number of elements. -/
def size (s : OrderedSet α) : Nat :=
  s.toList.length

/-- The elements of the set that satisfy a test, in the set's order. -/
def filter (p : α → Bool) (s : OrderedSet α) : OrderedSet α where
  toList := s.toList.filter p
  nodup := s.nodup.filter p

/-- The description of a set, given the descriptions of its elements. -/
def describe (element : α → String) (s : OrderedSet α) : String :=
  "InsertionOrderedSet([" ++ ", ".intercalate (s.toList.map element) ++ "])"

section Decidable

variable [DecidableEq α]

instance (a : α) (s : OrderedSet α) : Decidable (a ∈ s) :=
  inferInstanceAs (Decidable (a ∈ s.toList))

instance : DecidableEq (OrderedSet α) := fun s t =>
  decidable_of_iff (s.toList = t.toList) ⟨ext_toList, fun h => h ▸ rfl⟩

/-- Whether an element belongs to the set. -/
def contains (s : OrderedSet α) (a : α) : Bool :=
  decide (a ∈ s)

/-- The elements of the first set, then those of the second that are new. -/
def union (s t : OrderedSet α) : OrderedSet α where
  toList := s.toList ++ t.toList.filter (fun a => !s.contains a)
  nodup := by
    refine List.nodup_append.2 ⟨s.nodup, t.nodup.filter _, ?_⟩
    intro a ha b hb hab
    subst hab
    simp only [contains, List.mem_filter, Bool.not_eq_true', decide_eq_false_iff_not] at hb
    exact hb.2 ha

/-- The common elements, in the order of the second set. -/
def inter (s t : OrderedSet α) : OrderedSet α :=
  t.filter s.contains

/-- The elements of the first set that are not in the second. -/
def sdiff (s t : OrderedSet α) : OrderedSet α :=
  s.filter (fun a => !t.contains a)

/-- The elements of exactly one of two sets, those of the first set first. -/
def symmDiff (s t : OrderedSet α) : OrderedSet α :=
  (s.sdiff t).union (t.sdiff s)

instance : Union (OrderedSet α) where
  union := union

instance : Inter (OrderedSet α) where
  inter := inter

instance : SDiff (OrderedSet α) where
  sdiff := sdiff

/-- Adds an element at the end unless the set has it already. -/
def insert (s : OrderedSet α) (a : α) : OrderedSet α :=
  s.union (singleton a)

/-- Removes an element. -/
def erase (s : OrderedSet α) (a : α) : OrderedSet α :=
  s.filter (fun b => b != a)

/-- The set of the elements of a list, in order of first occurrence. -/
def ofList (elements : List α) : OrderedSet α :=
  elements.foldl insert empty

/-- Whether every element of the first set is in the second. -/
def isSubset (s t : OrderedSet α) : Bool :=
  s.toList.all t.contains

/-- Whether the two sets have the same elements, in whatever order. -/
def sameElements (s t : OrderedSet α) : Bool :=
  s.isSubset t && t.isSubset s

/-- Whether the first set is contained in the second and is not all of it. -/
def isProperSubset (s t : OrderedSet α) : Bool :=
  s.isSubset t && !t.isSubset s

/-- Whether two sets have no element in common. -/
def isDisjoint (s t : OrderedSet α) : Bool :=
  s.toList.all (fun a => !t.contains a)

/-! ## Membership -/

@[simp] theorem contains_iff {s : OrderedSet α} {a : α} : s.contains a = true ↔ a ∈ s := by
  simp [contains]

omit [DecidableEq α] in
@[simp] theorem not_mem_empty {a : α} : ¬ a ∈ (∅ : OrderedSet α) :=
  List.not_mem_nil

omit [DecidableEq α] in
@[simp] theorem mem_singleton {a b : α} : a ∈ singleton b ↔ a = b :=
  List.mem_singleton

omit [DecidableEq α] in
theorem mem_filter {p : α → Bool} {s : OrderedSet α} {a : α} :
    a ∈ s.filter p ↔ a ∈ s ∧ p a = true :=
  List.mem_filter

/-- An element of a union is in one of the two sets. -/
@[simp] theorem mem_union {s t : OrderedSet α} {a : α} : a ∈ s ∪ t ↔ a ∈ s ∨ a ∈ t := by
  change a ∈ s.toList ++ t.toList.filter _ ↔ _
  by_cases h : a ∈ s
  · simp [h, mem_toList]
  · simp [h, mem_toList, contains]

/-- An element of an intersection is in both sets. -/
@[simp] theorem mem_inter {s t : OrderedSet α} {a : α} : a ∈ s ∩ t ↔ a ∈ s ∧ a ∈ t := by
  change a ∈ t.filter s.contains ↔ _
  simp [mem_filter, and_comm]

/-- An element of a difference is in the first set and not in the second. -/
@[simp] theorem mem_sdiff {s t : OrderedSet α} {a : α} : a ∈ s \ t ↔ a ∈ s ∧ ¬ a ∈ t := by
  change a ∈ s.filter _ ↔ _
  simp [mem_filter, contains]

/-- Inserting adds exactly one element. -/
@[simp] theorem mem_insert {s : OrderedSet α} {a b : α} : a ∈ s.insert b ↔ a ∈ s ∨ a = b := by
  change a ∈ s ∪ singleton b ↔ _
  simp

/-- Erasing removes exactly one element. -/
@[simp] theorem mem_erase {s : OrderedSet α} {a b : α} : a ∈ s.erase b ↔ a ∈ s ∧ a ≠ b := by
  simp [erase, mem_filter]

end Decidable

end OrderedSet

end LetPoly
