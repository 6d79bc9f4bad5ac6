import LetPoly.Fresh
import Mathlib.Data.String.Basic

/-!
# Numbered names

Type variables and parameters are numbered, and different numbers give different names.  So
what is made while a counter moves is told apart from what was made before and after.

Main results:

- Theorems {lit}`typeVarName_injective` and {lit}`parameterName_injective`: numbered names
  are distinct.
- Theorem {lit}`Minted.not_minted`: what was made earlier is not made again.
-/

namespace LetPoly

namespace Text

/-- Different natural numbers have different digits. -/
theorem repr_injective {a b : Nat} (h : a.repr = b.repr) : a = b := by
  have hdigits := congrArg String.toList h
  rw [Nat.toList_repr, Nat.toList_repr] at hdigits
  rw [← Nat.ofDigitChars_ten_toDigits (n := a), hdigits, Nat.ofDigitChars_ten_toDigits]

/-- No digit is a minus sign. -/
theorem repr_ne_minus {a b : Nat} : a.repr ≠ "-" ++ b.repr := by
  intro h
  have hdigits := congrArg String.toList h
  rw [Nat.toList_repr, String.toList_append] at hdigits
  have hmem : '-' ∈ Nat.toDigits 10 a := by
    rw [hdigits]
    simp
  have hdigit := Nat.isDigit_of_mem_toDigits (by decide) (by decide) hmem
  exact absurd hdigit (by decide)

/-- Different integers have different decimal texts. -/
theorem decimal_injective {m n : Int} (h : decimal m = decimal n) : m = n := by
  match m, n with
  | .ofNat a, .ofNat b =>
      have hab : a.repr = b.repr := h
      rw [repr_injective hab]
  | .ofNat a, .negSucc b =>
      have hab : a.repr = "-" ++ (b + 1).repr := h
      exact absurd hab repr_ne_minus
  | .negSucc a, .ofNat b =>
      have hab : "-" ++ (a + 1).repr = b.repr := h
      exact absurd hab.symm repr_ne_minus
  | .negSucc a, .negSucc b =>
      have hab : "-" ++ (a + 1).repr = "-" ++ (b + 1).repr := h
      have hsucc : a + 1 = b + 1 := repr_injective (String.append_right_inj _ |>.1 hab)
      rw [Nat.succ.inj hsucc]

end Text

/-- Type variables with different numbers are different. -/
theorem typeVarName_injective {m n : Int} (h : typeVarName m = typeVarName n) : m = n :=
  Text.decimal_injective (String.append_right_inj _ |>.1 h)

/-- Parameters with different numbers are different. -/
theorem parameterName_injective {m n : Int} (h : parameterName m = parameterName n) : m = n :=
  Text.decimal_injective (String.append_right_inj _ |>.1 h)

/-- A name does not begin like the parameters that evaluation makes. -/
def Unnumbered (x : String) : Prop :=
  x.toList.head? ≠ some '#'

instance (x : String) : Decidable (Unnumbered x) :=
  inferInstanceAs (Decidable (x.toList.head? ≠ some '#'))

theorem Unnumbered.ne_parameterName {x : String} (h : Unnumbered x) (i : Int) :
    x ≠ parameterName i := by
  rintro rfl
  refine h ?_
  rw [parameterName, String.toList_append]
  rfl

/-! ## Type variables made while a counter moves -/

/-- A type variable was made while a counter went from one value to another. -/
def Minted (c c' : Int) (a : String) : Prop :=
  ∃ i, c < i ∧ i ≤ c' ∧ a = typeVarName i

theorem Minted.mono {c c' d d' : Int} {a : String} (h : Minted c c' a) (hc : d ≤ c)
    (hc' : c' ≤ d') : Minted d d' a := by
  obtain ⟨i, hlow, hhigh, rfl⟩ := h
  exact ⟨i, by omega, by omega, rfl⟩

theorem minted_succ (c : Int) : Minted c (c + 1) (typeVarName (c + 1)) :=
  ⟨c + 1, by omega, by omega, rfl⟩

/-- What is made later was not made before. -/
theorem Minted.not_minted {c c' d d' : Int} {a : String} (h : Minted c c' a) (hd : c' ≤ d) :
    ¬ Minted d d' a := by
  rintro ⟨j, hlow, hhigh, heq⟩
  obtain ⟨i, -, hi, rfl⟩ := h
  have hij := typeVarName_injective heq
  omega

end LetPoly
