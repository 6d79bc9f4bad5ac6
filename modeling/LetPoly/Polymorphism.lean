import LetPoly.CheckError

/-!
# Generalization and normal forms

A type is generalized by quantifying the variables that the environment leaves free, and
a closed scheme is brought to a normal form in which its variables are called {lit}`a`,
{lit}`b` and so on in order of first occurrence.  Schemes that differ only in the names of
their variables have the same normal form.
-/

namespace LetPoly

variable {κ : Type}

/-- Quantifies the variables of a type that are not free in the environment. -/
def Ty.generalize (env : Env κ) (type : Ty κ) : Scheme κ where
  bound := (type.freeVars \ env.freeVars).toList
  body := type

/-- The word after a word over the lower-case letters, last letter first: words are ordered
by length and then alphabetically. -/
def nextWord : List Char → List Char
  | [] => ['a']
  | c :: rest =>
      if c = 'z' then 'a' :: nextWord rest else Char.ofNat (c.toNat + 1) :: rest

/-- The nonempty words over the lower-case letters in order, last letter first. -/
def wordAt : Nat → List Char
  | 0 => ['a']
  | number + 1 => nextWord (wordAt number)

/-- The first nonempty words over the lower-case letters: {lit}`a` to {lit}`z`, {lit}`aa`,
{lit}`ab` and so on. -/
def letterNames (count : Nat) : List String :=
  (List.range count).map fun number => String.ofList (wordAt number).reverse

namespace Scheme

/-- The quantified variables of a scheme in order of first occurrence in its body. -/
def boundInOrder (scheme : Scheme κ) : List String :=
  scheme.body.freeVars.toList.filter scheme.bound.contains

/-- Renames the variables of a type inside a scheme that should be closed. -/
def rename (scheme : Scheme κ) (table : List (String × String)) : Ty κ → Checked κ (Ty κ)
  | .var name =>
      match table.lookup name with
      | some renamed => .ok (.var renamed)
      | none => .error (.broken (.freeVariable scheme name))
  | .con name => .ok (.con name)
  | .fn argument result => do
      let a ← scheme.rename table argument
      let r ← scheme.rename table result
      return .fn a r
  | .list element => do
      return .list (← scheme.rename table element)
  | .pair first second => do
      let a ← scheme.rename table first
      let b ← scheme.rename table second
      return .pair a b
  | .quantified mark bound body =>
      .error (.broken (.notNormalizable (.quantified mark bound body)))

/-- The normal form of a closed scheme. -/
def normalize (scheme : Scheme κ) : Checked κ (Scheme κ) := do
  let order := scheme.boundInOrder
  match scheme.bound.find? fun v => !order.contains v with
  | some v => .error (.broken (.unusedVariable scheme v))
  | none =>
      let letters := letterNames order.length
      return { bound := letters, body := ← scheme.rename (order.zip letters) scheme.body }

end Scheme

/-- Quantifies all variables of a type and brings the scheme to its normal form. -/
def Ty.closeOver (type : Ty κ) : Checked κ (Scheme κ) :=
  (type.generalize ∅).normalize

end LetPoly
