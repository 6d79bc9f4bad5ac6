/-!
# Insertion-ordered bindings

A finite map from names to values that remembers the order in which its names first
appeared.  Giving a new value to a name that is present keeps the name's place.
Substitutions, typing environments and value environments are all of this kind, and the
order is part of what they print.

Main results:

- Theorems {lit}`get?_insert`, {lit}`get?_merge`, {lit}`get?_mapValues` and
  {lit}`get?_without`: each operation said through look-up.
- Theorem {lit}`mem_names_iff`: the listed names are those with a value.
-/

namespace LetPoly

/-- A finite map from names to values with a fixed order of its names. -/
structure Bindings (α : Type) where
  /-- The bindings, in the order in which the names first appeared. -/
  entries : List (String × α)
  /-- No name is bound twice. -/
  nodup : (entries.map Prod.fst).Nodup

namespace Bindings

variable {α β : Type}

/-- Two maps are equal when they list the same bindings in the same order. -/
@[ext]
theorem ext_entries {b c : Bindings α} (h : b.entries = c.entries) : b = c := by
  cases b
  cases c
  simp_all

instance [DecidableEq α] : DecidableEq (Bindings α) := fun b c =>
  decidable_of_iff (b.entries = c.entries) ⟨ext_entries, fun h => h ▸ rfl⟩

/-- The map without bindings. -/
def empty : Bindings α where
  entries := []
  nodup := List.nodup_nil

instance : EmptyCollection (Bindings α) where
  emptyCollection := empty

instance : Inhabited (Bindings α) where
  default := empty

/-- The map with one binding. -/
def single (name : String) (value : α) : Bindings α where
  entries := [(name, value)]
  nodup := by simp

/-- The bound names, in order. -/
def names (b : Bindings α) : List String :=
  b.entries.map Prod.fst

/-- The values, in the order of their names. -/
def values (b : Bindings α) : List α :=
  b.entries.map Prod.snd

/-- The number of bindings. -/
def size (b : Bindings α) : Nat :=
  b.entries.length

/-- Whether there are no bindings. -/
def isEmpty (b : Bindings α) : Bool :=
  b.entries.isEmpty

/-- The value of a name. -/
def get? (b : Bindings α) (name : String) : Option α :=
  b.entries.lookup name

/-- Whether a name is bound. -/
def contains (b : Bindings α) (name : String) : Bool :=
  b.names.contains name

/-- Applies a function to every value and keeps names and order. -/
def mapValues (f : α → β) (b : Bindings α) : Bindings β where
  entries := b.entries.map fun entry => (entry.1, f entry.2)
  nodup := by
    have h : (b.entries.map fun entry => (entry.1, f entry.2)).map Prod.fst =
        b.entries.map Prod.fst := by
      simp [Function.comp_def]
    rw [h]
    exact b.nodup

/-- Drops the bindings of the given names. -/
def without (b : Bindings α) (dropped : List String) : Bindings α where
  entries := b.entries.filter fun entry => !dropped.contains entry.1
  nodup := (List.filter_sublist.map Prod.fst).nodup b.nodup

/-- The first map's names in place, each with the second map's value if it has one, then
the second map's new names. -/
def merge (b c : Bindings α) : Bindings α where
  entries :=
    (b.entries.map fun entry => (entry.1, (c.get? entry.1).getD entry.2)) ++
      c.entries.filter fun entry => !b.contains entry.1
  nodup := by
    have h : (b.entries.map fun entry => (entry.1, (c.get? entry.1).getD entry.2)).map
        Prod.fst = b.entries.map Prod.fst := by
      simp [Function.comp_def]
    rw [List.map_append, h]
    refine List.nodup_append.2
      ⟨b.nodup, (List.filter_sublist.map Prod.fst).nodup c.nodup, ?_⟩
    intro x hx y hy hxy
    subst hxy
    obtain ⟨entry, hentry, rfl⟩ := List.mem_map.1 hy
    have hnot := (List.mem_filter.1 hentry).2
    simp only [contains, names, List.contains_eq_mem, Bool.not_eq_true',
      decide_eq_false_iff_not] at hnot
    exact hnot hx

/-- Binds a name: in its place if it is bound already, at the end otherwise. -/
def insert (b : Bindings α) (name : String) (value : α) : Bindings α :=
  b.merge (single name value)

/-- The map of a list of bindings, where a later binding of a name replaces the value of
an earlier one in the earlier place. -/
def ofList (entries : List (String × α)) : Bindings α :=
  entries.foldl (fun b entry => b.insert entry.1 entry.2) empty

/-- Whether two maps give the same names the same values, in whatever order. -/
def sameValues [BEq α] (b c : Bindings α) : Bool :=
  b.size == c.size &&
    b.entries.all fun entry =>
      match c.get? entry.1 with
      | some value => value == entry.2
      | none => false

/-! ## Look-up -/

@[simp] theorem entries_empty : (∅ : Bindings α).entries = [] :=
  rfl

@[simp] theorem get?_empty (name : String) : (∅ : Bindings α).get? name = none :=
  rfl

private theorem lookup_filter_names {entries : List (String × α)} {p : String → Bool}
    (name : String) :
    (entries.filter fun entry => p entry.1).lookup name =
      if p name then entries.lookup name else none := by
  induction entries with
  | nil => simp
  | cons entry rest ih =>
      obtain ⟨key, value⟩ := entry
      by_cases hk : name = key
      · subst hk
        by_cases hp : p name
        · simp [hp]
        · rw [List.filter_cons_of_neg (by simpa using hp), ih, if_neg hp, if_neg hp]
      · have hbeq : (name == key) = false := by simp [hk]
        by_cases hp : p key
        · simp [hp, List.lookup_cons, hbeq, ih]
        · simp [hp, List.lookup_cons, hbeq, ih]

private theorem lookup_map_entries {entries : List (String × α)} {f : String → α → β}
    (name : String) :
    (entries.map fun entry => (entry.1, f entry.1 entry.2)).lookup name =
      (entries.lookup name).map (f name) := by
  induction entries with
  | nil => simp
  | cons entry rest ih =>
      obtain ⟨key, value⟩ := entry
      by_cases hk : name = key
      · subst hk
        simp
      · have hbeq : (name == key) = false := by simp [hk]
        simp [List.lookup_cons, hbeq, ih]

private theorem lookup_isSome_iff {entries : List (String × α)} {name : String} :
    (entries.lookup name).isSome = true ↔ name ∈ entries.map Prod.fst := by
  induction entries with
  | nil => simp
  | cons entry rest ih =>
      obtain ⟨key, value⟩ := entry
      by_cases hk : name = key
      · subst hk
        simp
      · have hbeq : (name == key) = false := by simp [hk]
        rw [List.lookup_cons, hbeq]
        simp only [ih, List.map_cons, List.mem_cons, hk, false_or]

/-- The listed names are those that have a value. -/
theorem mem_names_iff {b : Bindings α} {name : String} :
    name ∈ b.names ↔ (b.get? name).isSome = true :=
  lookup_isSome_iff.symm

/-- A name is bound when it has a value. -/
@[simp] theorem contains_eq_isSome (b : Bindings α) (name : String) :
    b.contains name = (b.get? name).isSome := by
  rw [Bool.eq_iff_iff, ← mem_names_iff]
  simp [contains]

/-- Mapping values maps the value that is found. -/
@[simp] theorem get?_mapValues (f : α → β) (b : Bindings α) (name : String) :
    (b.mapValues f).get? name = (b.get? name).map f :=
  lookup_map_entries (f := fun _ => f) name

/-- A dropped name has no value, and every other name keeps its own. -/
@[simp] theorem get?_without (b : Bindings α) (dropped : List String) (name : String) :
    (b.without dropped).get? name = if name ∈ dropped then none else b.get? name := by
  have h : (b.without dropped).get? name =
      if !dropped.contains name then b.get? name else none :=
    lookup_filter_names (p := fun key => !dropped.contains key) name
  rw [h]
  by_cases hd : name ∈ dropped <;> simp [hd]

/-- In a merge the second map wins. -/
@[simp] theorem get?_merge (b c : Bindings α) (name : String) :
    (b.merge c).get? name = (c.get? name).or (b.get? name) := by
  change List.lookup name (_ ++ _) = _
  rw [List.lookup_append,
    lookup_map_entries (f := fun key value => (c.get? key).getD value),
    lookup_filter_names (p := fun key => !b.contains key)]
  simp only [contains_eq_isSome, Bool.not_eq_true']
  change ((b.get? name).map _).or (if _ then c.get? name else none) = _
  cases hb : b.get? name <;> cases hc : c.get? name <;> simp

/-- After an insertion the name has the new value and all others keep theirs. -/
@[simp] theorem get?_insert (b : Bindings α) (name : String) (value : α) (other : String) :
    (b.insert name value).get? other = if other = name then some value else b.get? other := by
  rw [insert, get?_merge]
  by_cases h : other = name
  · subst h
    simp [single, get?]
  · have hbeq : (other == name) = false := by simp [h]
    simp [single, get?, List.lookup_cons, hbeq, h]

end Bindings

end LetPoly
