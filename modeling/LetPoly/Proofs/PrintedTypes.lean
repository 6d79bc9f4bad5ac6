import LetPoly.Proofs.Inference.Variables
import LetPoly.Proofs.NormalForms
import LetPoly.Proofs.Reading.Lexemes

/-!
# Printed types and schemes

The text of a type has as few parentheses as possible: only a function type that is the argument
of an arrow is put in parentheses, which also stand around pairs, and the result of an arrow
runs on to the end of what it stands in.  Still a text can be read in one way only.

A type is printed in two places.  As the argument of an arrow it is closed in itself, and what
follows it starts with no letter or digit.  Elsewhere it runs on until a bracket or a comma, or
to the end of the text.  Reading in one way is proved for both at once.

Main results:

- Theorem {lit}`Ty.readsOneWay`: types whose texts begin a text are the same.
- Theorem {lit}`Scheme.eq_of_render_eq`: schemes with the same text are the same.
- Theorem {lit}`printed_in_one_way`: both, with the names that inference and normal forms use.
-/

namespace LetPoly

/-! ## Names -/

/-- The name of a type variable: lower-case letters, and digits after them. -/
def IsTypeVarName (name : String) : Prop :=
  ∃ letters digits : List Char, name.toList = letters ++ digits ∧ letters ≠ [] ∧
    IsLowerWord letters ∧ ∀ c ∈ digits, c.isDigit = true

/-- A name made of letters and digits. -/
def IsTypeWord (name : String) : Prop :=
  name.toList ≠ [] ∧ ∀ c ∈ name.toList, Token.isWordChar c = true

/-- The name of a type variable is a word. -/
theorem IsTypeVarName.isTypeWord {name : String} (h : IsTypeVarName name) : IsTypeWord name := by
  obtain ⟨letters, digits, hname, hne, hletters, hdigits⟩ := h
  rw [IsTypeWord, hname]
  refine ⟨by simp [hne], fun c hc => ?_⟩
  have hword : c.isAlpha = true ∨ c.isDigit = true := by
    rcases List.mem_append.1 hc with hc | hc
    · exact Or.inl (Token.isAlpha_iff.2 (Or.inr (hletters c hc)))
    · exact Or.inr (hdigits c hc)
  simp [Token.isWordChar, Char.isAlphanum, hword]

/-- A variable's name starts with a lower-case letter. -/
theorem IsTypeVarName.exists_cons {name : String} (h : IsTypeVarName name) :
    ∃ c cs, name.toList = c :: cs ∧ 97 ≤ c.toNat := by
  obtain ⟨letters, digits, hname, hne, hletters, -⟩ := h
  obtain ⟨c, letters, rfl⟩ := List.exists_cons_of_ne_nil hne
  exact ⟨c, letters ++ digits, hname, (hletters c (by simp)).1⟩

/-- The names in normal forms are names of type variables. -/
theorem IsLetterName.isTypeVarName {name : String} (h : IsLetterName name) : IsTypeVarName name :=
  ⟨name.toList, [], by simp, h.1, h.2, by simp⟩

/-- So are the numbered names that inference makes. -/
theorem isTypeVarName_typeVarName {number : Int} (h : 0 ≤ number) :
    IsTypeVarName (typeVarName number) := by
  obtain ⟨n, rfl⟩ := Int.eq_ofNat_of_zero_le h
  refine ⟨['t'], n.repr.toList, String.toList_append, by simp, ?_, fun c hc => ?_⟩
  · exact isLowerWord_cons.2 ⟨by decide, by simp [IsLowerWord]⟩
  · rw [Nat.toList_repr] at hc
    exact Nat.isDigit_of_mem_toDigits (by decide) (by decide) hc

/-! ## Reading words -/

namespace Text

/-- A word does not go on with the characters. -/
def EndsWord (rest : List Char) : Prop :=
  ∀ c ∈ rest.head?, Token.isWordChar c = false

theorem endsWord_cons {c : Char} {rest : List Char} :
    EndsWord (c :: rest) ↔ Token.isWordChar c = false := by
  simp [EndsWord]

/-- A space ends a word. -/
theorem endsWord_space (rest : List Char) : EndsWord (' ' :: rest) :=
  endsWord_cons.2 (by decide)

/-- A dot ends a word. -/
theorem endsWord_dot (rest : List Char) : EndsWord ('.' :: rest) :=
  endsWord_cons.2 (by decide)

/-- A word is found again in front of what ends it. -/
theorem takeWhile_word {word rest : List Char} (hword : ∀ c ∈ word, Token.isWordChar c = true)
    (hrest : EndsWord rest) : (word ++ rest).takeWhile Token.isWordChar = word := by
  rw [List.takeWhile_append_of_pos hword]
  cases rest with
  | nil => simp
  | cons c rest => simp [endsWord_cons.1 hrest]

/-- A word that is followed by something else is read in one way. -/
theorem word_append_inj {word word' rest rest' : List Char}
    (hword : ∀ c ∈ word, Token.isWordChar c = true)
    (hword' : ∀ c ∈ word', Token.isWordChar c = true) (hrest : EndsWord rest)
    (hrest' : EndsWord rest') (h : word ++ rest = word' ++ rest') :
    word = word' ∧ rest = rest' := by
  have hwords : word = word' := by
    rw [← takeWhile_word hword hrest, h, takeWhile_word hword' hrest']
  subst hwords
  exact ⟨rfl, List.append_cancel_left h⟩

end Text

/-- Names that are followed by something else are read in one way. -/
theorem IsTypeWord.append_inj {x y : String} {rest rest' : List Char} (hx : IsTypeWord x)
    (hy : IsTypeWord y) (hrest : Text.EndsWord rest) (hrest' : Text.EndsWord rest')
    (h : x.toList ++ rest = y.toList ++ rest') : x = y ∧ rest = rest' := by
  obtain ⟨hxy, hrests⟩ := Text.word_append_inj hx.2 hy.2 hrest hrest' h
  exact ⟨String.toList_inj.1 hxy, hrests⟩

/-- A name does not start like anything but a word. -/
theorem IsTypeWord.append_ne {x : String} (hx : IsTypeWord x) {c : Char}
    (hc : Token.isWordChar c = false) (rest cs : List Char) : x.toList ++ rest ≠ c :: cs := by
  obtain ⟨d, word, hword⟩ := List.exists_cons_of_ne_nil hx.1
  rw [hword, List.cons_append]
  intro h
  have hd := hx.2 d (by simp [hword])
  rw [(List.cons.inj h).1, hc] at hd
  cases hd

/-! ## Reading types -/

namespace Ty

/-- The constants of a type are those of the language, and its variables are named by letters
and digits. -/
def PlainlyNamed : MonoTy → Prop
  | var name => IsTypeVarName name
  | con name => name = "Int" ∨ name = "Bool"
  | fn argument result => argument.PlainlyNamed ∧ result.PlainlyNamed
  | list element => element.PlainlyNamed
  | pair first second => first.PlainlyNamed ∧ second.PlainlyNamed
  | quantified mark _ _ => mark.elim

/-- The characters of a type. -/
def chars (t : MonoTy) : List Char :=
  t.render.toList

/-- The characters of a type that is the argument of an arrow. -/
def argumentChars (t : MonoTy) : List Char :=
  if t.isFn then '(' :: (t.chars ++ [')']) else t.chars

/-- The characters of an arrow in front of others. -/
def arrow (rest : List Char) : List Char :=
  ' ' :: '-' :: '>' :: ' ' :: rest

/-- A function type prints its argument, in parentheses if it needs them, an arrow and its
result. -/
theorem chars_fn (a b : MonoTy) : (fn a b).chars = a.argumentChars ++ arrow b.chars := by
  unfold chars argumentChars
  rw [render]
  cases a.isFn <;> simp [chars, arrow]

/-- The text of a list type stands in brackets. -/
theorem chars_list (e : MonoTy) : (list e).chars = '[' :: (e.chars ++ [']']) := by
  simp [chars, render]

/-- The text of a pair type stands in parentheses. -/
theorem chars_pair (a b : MonoTy) :
    (pair a b).chars = '(' :: (a.chars ++ ',' :: ' ' :: (b.chars ++ [')'])) := by
  simp [chars, render]

/-- A function in front of an arrow is put in parentheses. -/
theorem argumentChars_of_isFn {t : MonoTy} (h : t.isFn = true) :
    t.argumentChars = '(' :: (t.chars ++ [')']) :=
  if_pos h

/-- Nothing else is. -/
theorem argumentChars_of_not_isFn {t : MonoTy} (h : t.isFn = false) :
    t.argumentChars = t.chars :=
  if_neg (by simp [h])

/-- A type is a function type, or it is printed alike everywhere. -/
theorem eq_fn_or_argumentChars_eq (t : MonoTy) :
    (∃ a b, t = fn a b) ∨ t.argumentChars = t.chars := by
  cases t with
  | fn a b => exact Or.inl ⟨a, b, rfl⟩
  | var | con | list | pair => exact Or.inr (argumentChars_of_not_isFn rfl)
  | quantified mark _ _ => exact mark.elim

/-- A type that is a variable or a constant. -/
inductive IsNamed : MonoTy → String → Prop where
  | var (name : String) : IsNamed (var name) name
  | con (name : String) : IsNamed (con name) name

/-- A type that is a name prints the name everywhere. -/
theorem IsNamed.argumentChars_eq {t : MonoTy} {name : String} (h : t.IsNamed name) :
    t.argumentChars = name.toList := by
  cases h <;> rfl

/-- Plain names are words. -/
theorem IsNamed.isTypeWord {t : MonoTy} {name : String} (h : t.IsNamed name)
    (ht : t.PlainlyNamed) : IsTypeWord name := by
  cases h with
  | var => exact IsTypeVarName.isTypeWord ht
  | con =>
      rcases ht with rfl | rfl
      · exact ⟨by decide, List.all_eq_true.1 (by decide)⟩
      · exact ⟨by decide, List.all_eq_true.1 (by decide)⟩

/-- A constant starts with a capital letter and a variable does not. -/
theorem IsNamed.eq {t u : MonoTy} {name : String} (ht : t.IsNamed name) (hu : u.IsNamed name)
    (hplain : t.PlainlyNamed) (hplain' : u.PlainlyNamed) : t = u := by
  have hclash : IsTypeVarName name → ¬ (name = "Int" ∨ name = "Bool") := by
    intro hvar hcon
    obtain ⟨c, cs, hname, hc⟩ := hvar.exists_cons
    rcases hcon with rfl | rfl
    · obtain ⟨rfl, -⟩ := List.cons.inj hname
      exact absurd hc (by decide)
    · obtain ⟨rfl, -⟩ := List.cons.inj hname
      exact absurd hc (by decide)
  cases ht with
  | var =>
      cases hu with
      | var => rfl
      | con => exact absurd hplain' (hclash hplain)
  | con =>
      cases hu with
      | var => exact absurd hplain (hclash hplain')
      | con => rfl

/-! ### What a text starts with -/

section Inversion

variable {u : MonoTy} {rest cs : List Char}

/-- What is printed like a word is a name. -/
theorem exists_isNamed_of_argumentChars {name : String} (hname : IsTypeWord name)
    (h : u.argumentChars ++ rest = name.toList ++ cs) : ∃ other, u.IsNamed other := by
  cases u with
  | var other => exact ⟨other, .var other⟩
  | con other => exact ⟨other, .con other⟩
  | fn a b => exact absurd h.symm (hname.append_ne (by decide) _ _)
  | list e =>
      rw [argumentChars_of_not_isFn rfl, chars_list] at h
      exact absurd h.symm (hname.append_ne (by decide) _ _)
  | pair a b =>
      rw [argumentChars_of_not_isFn rfl, chars_pair] at h
      exact absurd h.symm (hname.append_ne (by decide) _ _)
  | quantified mark _ _ => exact mark.elim

/-- What is printed with a bracket in front is a list. -/
theorem eq_list_of_argumentChars (hu : u.PlainlyNamed)
    (h : u.argumentChars ++ rest = '[' :: cs) :
    ∃ e, u = list e ∧ cs = e.chars ++ ']' :: rest := by
  cases u with
  | var name => exact absurd h ((IsNamed.var name).isTypeWord hu |>.append_ne (by decide) _ _)
  | con name => exact absurd h ((IsNamed.con name).isTypeWord hu |>.append_ne (by decide) _ _)
  | fn a b =>
      rw [argumentChars_of_isFn rfl] at h
      cases (List.cons.inj h).1
  | list e =>
      rw [argumentChars_of_not_isFn rfl, chars_list] at h
      exact ⟨e, rfl, by simpa using (List.cons.inj h).2.symm⟩
  | pair a b =>
      rw [argumentChars_of_not_isFn rfl, chars_pair] at h
      cases (List.cons.inj h).1
  | quantified mark _ _ => exact mark.elim

/-- An opening parenthesis belongs to a function type or to a pair. -/
theorem isFn_or_eq_pair_of_argumentChars (hu : u.PlainlyNamed)
    (h : u.argumentChars ++ rest = '(' :: cs) :
    (u.isFn = true ∧ cs = u.chars ++ ')' :: rest) ∨
      ∃ a b, u = pair a b ∧ cs = a.chars ++ ',' :: ' ' :: (b.chars ++ ')' :: rest) := by
  cases u with
  | var name => exact absurd h ((IsNamed.var name).isTypeWord hu |>.append_ne (by decide) _ _)
  | con name => exact absurd h ((IsNamed.con name).isTypeWord hu |>.append_ne (by decide) _ _)
  | fn a b =>
      rw [argumentChars_of_isFn rfl] at h
      exact Or.inl ⟨rfl, by simpa using (List.cons.inj h).2.symm⟩
  | list e =>
      rw [argumentChars_of_not_isFn rfl, chars_list] at h
      cases (List.cons.inj h).1
  | pair a b =>
      rw [argumentChars_of_not_isFn rfl, chars_pair] at h
      exact Or.inr ⟨a, b, rfl, by simpa using (List.cons.inj h).2.symm⟩
  | quantified mark _ _ => exact mark.elim

end Inversion

/-! ### One way to read -/

/-- What follows a type that is not the argument of an arrow: the end of the text or of what the
type stands in. -/
def Closes (rest : List Char) : Prop :=
  ∀ c ∈ rest.head?, c = ')' ∨ c = ']' ∨ c = ','

theorem closes_cons {c : Char} {rest : List Char} :
    Closes (c :: rest) ↔ c = ')' ∨ c = ']' ∨ c = ',' := by
  simp [Closes]

theorem closes_paren (rest : List Char) : Closes (')' :: rest) :=
  closes_cons.2 (Or.inl rfl)

theorem closes_bracket (rest : List Char) : Closes (']' :: rest) :=
  closes_cons.2 (Or.inr (Or.inl rfl))

theorem closes_comma (rest : List Char) : Closes (',' :: rest) :=
  closes_cons.2 (Or.inr (Or.inr rfl))

/-- An arrow goes on with a type, it does not close it. -/
theorem not_closes_arrow (rest : List Char) : ¬ Closes (arrow rest) := by
  simp [arrow, closes_cons]

/-- The space of an arrow ends a word. -/
theorem endsWord_arrow (rest : List Char) : Text.EndsWord (arrow rest) :=
  Text.endsWord_space _

/-- What closes a type ends a word. -/
theorem Closes.endsWord {rest : List Char} (h : Closes rest) : Text.EndsWord rest := by
  intro c hc
  rcases h c hc with rfl | rfl | rfl <;> decide

/-- A type is known from any text that starts with its own, in both places where a type may
stand. -/
structure ReadsOneWay (t : MonoTy) : Prop where
  /-- In front of an arrow. -/
  argument : ∀ {u : MonoTy} {rest rest' : List Char}, u.PlainlyNamed → Text.EndsWord rest →
    Text.EndsWord rest' → t.argumentChars ++ rest = u.argumentChars ++ rest' →
    t = u ∧ rest = rest'
  /-- Elsewhere. -/
  whole : ∀ {u : MonoTy} {rest rest' : List Char}, u.PlainlyNamed → Closes rest →
    Closes rest' → t.chars ++ rest = u.chars ++ rest' → t = u ∧ rest = rest'

/-- A type that is no function type is printed alike in both places. -/
theorem ReadsOneWay.of_argument {t : MonoTy} (ht : t.isFn = false)
    (h : ∀ {u : MonoTy} {rest rest' : List Char}, u.PlainlyNamed → Text.EndsWord rest →
      Text.EndsWord rest' → t.argumentChars ++ rest = u.argumentChars ++ rest' →
      t = u ∧ rest = rest') : t.ReadsOneWay where
  argument := h
  whole := by
    intro u rest rest' hu hrest hrest' heq
    rw [← argumentChars_of_not_isFn ht] at heq
    rcases u.eq_fn_or_argumentChars_eq with ⟨a, b, rfl⟩ | hchars
    · -- the type would be the argument of an arrow, but no arrow follows it
      rw [chars_fn, List.append_assoc] at heq
      obtain ⟨-, rfl⟩ := h hu.1 hrest.endsWord (endsWord_arrow _) heq
      exact absurd hrest (not_closes_arrow _)
    · rw [← hchars] at heq
      exact h hu hrest.endsWord hrest'.endsWord heq

/-- Names are read in one way: a word ends at the first character that cannot go on. -/
theorem ReadsOneWay.of_isNamed {t : MonoTy} {name : String} (hname : t.IsNamed name)
    (ht : t.PlainlyNamed) : t.ReadsOneWay := by
  have hword := hname.isTypeWord ht
  refine .of_argument (by cases hname <;> rfl) ?_
  intro u rest rest' hu hrest hrest' heq
  rw [hname.argumentChars_eq] at heq
  obtain ⟨other, hother⟩ := exists_isNamed_of_argumentChars hword heq.symm
  rw [hother.argumentChars_eq] at heq
  obtain ⟨rfl, hrests⟩ := hword.append_inj (hother.isTypeWord hu) hrest hrest' heq
  exact ⟨hname.eq hother ht hu, hrests⟩

/-- Lists are read in one way if their elements are. -/
theorem ReadsOneWay.list {e : MonoTy} (he : e.ReadsOneWay) : (list e).ReadsOneWay := by
  refine .of_argument rfl ?_
  intro u rest rest' hu hrest hrest' heq
  rw [argumentChars_of_not_isFn rfl, chars_list, List.cons_append] at heq
  obtain ⟨e', rfl, htail⟩ := eq_list_of_argumentChars hu heq.symm
  rw [List.append_assoc] at htail
  have he' : e'.PlainlyNamed := hu
  obtain ⟨rfl, hrests⟩ := he.whole he' (closes_bracket _) (closes_bracket _) htail
  exact ⟨rfl, (List.cons.inj hrests).2⟩

/-- Pairs are read in one way if their parts are. -/
theorem ReadsOneWay.pair {a b : MonoTy} (ha : a.ReadsOneWay) (hb : b.ReadsOneWay) :
    (pair a b).ReadsOneWay := by
  refine .of_argument rfl ?_
  intro u rest rest' hu hrest hrest' heq
  rw [argumentChars_of_not_isFn rfl, chars_pair, List.cons_append] at heq
  rcases isFn_or_eq_pair_of_argumentChars hu heq.symm with ⟨-, htail⟩ | ⟨a', b', rfl, htail⟩
  · -- a comma follows the first component, but a parenthesis closes the function type
    rw [List.append_assoc] at htail
    obtain ⟨-, hrests⟩ := ha.whole hu (closes_comma _) (closes_paren _) htail
    cases (List.cons.inj hrests).1
  · simp only [List.append_assoc, List.cons_append, List.nil_append] at htail
    obtain ⟨rfl, hcomma⟩ := ha.whole hu.1 (closes_comma _) (closes_comma _) htail
    have hsecond := (List.cons.inj (List.cons.inj hcomma).2).2
    obtain ⟨rfl, hrests⟩ := hb.whole hu.2 (closes_paren _) (closes_paren _) hsecond
    exact ⟨rfl, (List.cons.inj hrests).2⟩

/-- The text of a function type, where it is not an argument, belongs to no other type. -/
theorem whole_fn {a b : MonoTy} (ha : a.ReadsOneWay) (hb : b.ReadsOneWay) {u : MonoTy}
    {rest rest' : List Char} (hu : u.PlainlyNamed) (hrest : Closes rest) (hrest' : Closes rest')
    (heq : (fn a b).chars ++ rest = u.chars ++ rest') : fn a b = u ∧ rest = rest' := by
  rw [chars_fn, List.append_assoc] at heq
  rcases u.eq_fn_or_argumentChars_eq with ⟨c, d, rfl⟩ | hchars
  · rw [chars_fn, List.append_assoc] at heq
    obtain ⟨rfl, htail⟩ := ha.argument hu.1 (endsWord_arrow _) (endsWord_arrow _) heq
    have hresult : b.chars ++ rest = d.chars ++ rest' := by simpa [arrow] using htail
    obtain ⟨rfl, hrests⟩ := hb.whole hu.2 hrest hrest' hresult
    exact ⟨rfl, hrests⟩
  · rw [← hchars] at heq
    obtain ⟨-, rfl⟩ := ha.argument hu (endsWord_arrow _) hrest'.endsWord heq
    exact absurd hrest' (not_closes_arrow _)

/-- Functions are read in one way if argument and result are: an arrow behind an argument tells that
there is a result. -/
theorem ReadsOneWay.fn {a b : MonoTy} (ha : a.ReadsOneWay) (hb : b.ReadsOneWay) :
    (fn a b).ReadsOneWay where
  whole := whole_fn ha hb
  argument := by
    intro u rest rest' hu hrest hrest' heq
    rw [argumentChars_of_isFn rfl, List.cons_append] at heq
    rcases isFn_or_eq_pair_of_argumentChars hu heq.symm with ⟨-, htail⟩ | ⟨c, d, rfl, htail⟩
    · rw [List.append_assoc] at htail
      obtain ⟨rfl, hrests⟩ := whole_fn ha hb hu (closes_paren _) (closes_paren _) htail
      exact ⟨rfl, (List.cons.inj hrests).2⟩
    · rw [List.append_assoc] at htail
      obtain ⟨-, hrests⟩ := whole_fn ha hb hu.1 (closes_paren _) (closes_comma _) htail
      cases (List.cons.inj hrests).1

/-- The text of a type is read in one way. -/
theorem readsOneWay {t : MonoTy} (ht : t.PlainlyNamed) : t.ReadsOneWay := by
  induction t with
  | var name => exact .of_isNamed (.var name) ht
  | con name => exact .of_isNamed (.con name) ht
  | fn a b iha ihb => exact (iha ht.1).fn (ihb ht.2)
  | list e ih => exact (ih ht).list
  | pair a b iha ihb => exact (iha ht.1).pair (ihb ht.2)
  | quantified mark _ _ => exact mark.elim

/-- Types with the same text are the same. -/
theorem eq_of_render_eq {t u : MonoTy} (ht : t.PlainlyNamed) (hu : u.PlainlyNamed)
    (h : t.render = u.render) : t = u := by
  have hchars : t.chars ++ [] = u.chars ++ [] := by rw [chars, chars, h]
  exact ((readsOneWay ht).whole hu (by simp [Closes]) (by simp [Closes]) hchars).1

end Ty

/-! ## Reading schemes -/

namespace Scheme

/-- A scheme whose quantified variables and body are named by letters and digits. -/
def PlainlyNamed (σ : Scheme Empty) : Prop :=
  (∀ a ∈ σ.bound, IsTypeVarName a) ∧ σ.body.PlainlyNamed

/-- The characters of quantified variables, up to the dot behind them. -/
def boundChars (names : List String) (rest : List Char) : List Char :=
  (" ".intercalate names).toList ++ '.' :: rest

theorem boundChars_singleton (x : String) (rest : List Char) :
    boundChars [x] rest = x.toList ++ '.' :: rest := by
  simp [boundChars]

theorem boundChars_cons_cons (x y : String) (names : List String) (rest : List Char) :
    boundChars (x :: y :: names) rest = x.toList ++ ' ' :: boundChars (y :: names) rest := by
  rw [boundChars, String.intercalate_cons_cons]
  simp [boundChars]

/-- Behind a quantified variable stands another one or the dot. -/
theorem exists_boundChars_cons (x : String) (names : List String) (rest : List Char) :
    ∃ tail, boundChars (x :: names) rest = x.toList ++ tail ∧ Text.EndsWord tail := by
  cases names with
  | nil => exact ⟨_, boundChars_singleton x rest, Text.endsWord_dot _⟩
  | cons y names => exact ⟨_, boundChars_cons_cons x y names rest, Text.endsWord_space _⟩

/-- The names in front of the dot are read in one way. -/
theorem boundChars_inj {names others : List String} {rest rest' : List Char}
    (hnames : ∀ a ∈ names, IsTypeVarName a) (hothers : ∀ a ∈ others, IsTypeVarName a)
    (hne : names ≠ []) (hne' : others ≠ [])
    (h : boundChars names rest = boundChars others rest') : names = others ∧ rest = rest' := by
  induction names generalizing others with
  | nil => exact absurd rfl hne
  | cons x names ih =>
      obtain ⟨y, others, rfl⟩ := List.exists_cons_of_ne_nil hne'
      have hx := (hnames x (by simp)).isTypeWord
      have hy := (hothers y (by simp)).isTypeWord
      cases names with
      | nil =>
          cases others with
          | nil =>
              rw [boundChars_singleton, boundChars_singleton] at h
              obtain ⟨rfl, htail⟩ := hx.append_inj hy (Text.endsWord_dot _) (Text.endsWord_dot _) h
              exact ⟨rfl, (List.cons.inj htail).2⟩
          | cons y' others =>
              rw [boundChars_singleton, boundChars_cons_cons] at h
              obtain ⟨-, htail⟩ := hx.append_inj hy (Text.endsWord_dot _) (Text.endsWord_space _) h
              cases (List.cons.inj htail).1
      | cons x' names =>
          cases others with
          | nil =>
              rw [boundChars_singleton, boundChars_cons_cons] at h
              obtain ⟨-, htail⟩ := hx.append_inj hy (Text.endsWord_space _) (Text.endsWord_dot _) h
              cases (List.cons.inj htail).1
          | cons y' others =>
              rw [boundChars_cons_cons, boundChars_cons_cons] at h
              obtain ⟨rfl, htail⟩ :=
                hx.append_inj hy (Text.endsWord_space _) (Text.endsWord_space _) h
              obtain ⟨hlater, hrests⟩ := ih (fun a ha => hnames a (by simp [ha]))
                (fun a ha => hothers a (List.mem_cons_of_mem _ ha)) (by simp) (by simp)
                (List.cons.inj htail).2
              exact ⟨congrArg (x :: ·) hlater, hrests⟩

/-- A scheme without bound names prints its type alone. -/
theorem render_of_isEmpty {σ : Scheme Empty} (h : σ.bound = []) : σ.render = σ.body.render := by
  simp [render, Ty.forallText, h]

/-- The text of a scheme with bound names. -/
theorem toList_render {σ : Scheme Empty} (h : σ.bound ≠ []) :
    σ.render.toList = "forall".toList ++ ' ' :: boundChars σ.bound (' ' :: σ.body.chars) := by
  simp [render, Ty.forallText, h, boundChars, Ty.chars]

/-- No type starts like a quantifier: behind a variable that is called as the quantifier is, an
arrow follows or nothing. -/
theorem chars_ne_quantifier {t : MonoTy} (ht : t.PlainlyNamed) {names : List String}
    (hnames : ∀ a ∈ names, IsTypeVarName a) (hne : names ≠ []) (rest : List Char) :
    t.chars ≠ "forall".toList ++ ' ' :: boundChars names rest := by
  intro h
  have hlower : ("forall".toList.all fun c => 97 ≤ c.toNat ∧ c.toNat ≤ 122) = true := by decide
  have hforall : (Ty.var "forall" : MonoTy).PlainlyNamed :=
    ⟨"forall".toList, [], rfl, by decide,
      fun c hc => of_decide_eq_true (List.all_eq_true.1 hlower c hc), by simp⟩
  rcases t.eq_fn_or_argumentChars_eq with ⟨a, b, rfl⟩ | hchars
  · rw [Ty.chars_fn] at h
    obtain ⟨-, htail⟩ := (Ty.readsOneWay ht.1).argument hforall (Ty.endsWord_arrow _)
      (Text.endsWord_space _) h
    obtain ⟨x, names, rfl⟩ := List.exists_cons_of_ne_nil hne
    obtain ⟨tail, hbound, -⟩ := exists_boundChars_cons x names rest
    rw [hbound] at htail
    exact (hnames x (by simp)).isTypeWord.append_ne (by decide) _ _ (List.cons.inj htail).2.symm
  · rw [← hchars, ← List.append_nil t.argumentChars] at h
    obtain ⟨-, htail⟩ := (Ty.readsOneWay ht).argument hforall (by simp [Text.EndsWord])
      (Text.endsWord_space _) h
    cases htail

/-- Schemes with the same text are the same. -/
theorem eq_of_render_eq {σ τ : Scheme Empty} (hσ : σ.PlainlyNamed) (hτ : τ.PlainlyNamed)
    (h : σ.render = τ.render) : σ = τ := by
  obtain ⟨bound, body⟩ := σ
  obtain ⟨bound', body'⟩ := τ
  by_cases hbound : bound = []
  · subst hbound
    rw [render_of_isEmpty rfl] at h
    by_cases hbound' : bound' = []
    · subst hbound'
      rw [render_of_isEmpty rfl] at h
      have hbody : body = body' := Ty.eq_of_render_eq hσ.2 hτ.2 h
      rw [hbody]
    · have hchars := congrArg String.toList h
      rw [toList_render hbound'] at hchars
      exact absurd hchars (chars_ne_quantifier hσ.2 hτ.1 hbound' _)
  · have hchars := congrArg String.toList h
    rw [toList_render hbound] at hchars
    by_cases hbound' : bound' = []
    · subst hbound'
      rw [render_of_isEmpty rfl] at hchars
      exact absurd hchars.symm (chars_ne_quantifier hτ.2 hσ.1 hbound _)
    · rw [toList_render hbound'] at hchars
      have htail := (List.cons.inj (List.append_cancel_left hchars)).2
      obtain ⟨rfl, hbodies⟩ := boundChars_inj hσ.1 hτ.1 hbound hbound' htail
      have hbody : body = body' :=
        Ty.eq_of_render_eq hσ.2 hτ.2 (String.toList_inj.1 (List.cons.inj hbodies).2)
      rw [hbody]

end Scheme

/-! ## All that is printed -/

/-- Inference in an environment of closed schemes names its variables by a letter and digits. -/
theorem Expr.isTypeVarName_of_mentions {Γ : Env Empty} (hΓ : Γ.Closed) {c c' : Int} (hc : 0 ≤ c)
    {e : Expr} {r : Typed Empty} (h : Infers Γ c e r c') {a : String} (ha : r.Mentions a) :
    IsTypeVarName a := by
  rcases h.mentions.reaches ha with hfree | ⟨i, hi, -, rfl⟩
  · exact absurd hfree (hΓ.not_mem_freeVars a)
  · exact isTypeVarName_typeVarName (by omega)

/-- The variables of a normal form are named by letters. -/
theorem Scheme.isTypeVarName_of_normalize {σ ν : Scheme Empty} (h : σ.normalize = .ok ν)
    {a : String} (ha : a ∈ ν.bound ∨ a ∈ ν.body.freeVars) : IsTypeVarName a := by
  have hnormal := isNormal_of_closeOver (normalize_eq_ok h).2
  have hbound : a ∈ ν.bound := ha.elim id (closed_iff.1 hnormal.closed a)
  exact (hnormal.letters.letters a hbound).isTypeVarName

/-- Types and schemes are printed unambiguously: those with the constants of the language and
with variables named by lower-case letters and digits are equal if their texts are.  Inference
in an environment of closed schemes and normal forms use no other names. -/
theorem printed_in_one_way :
    (∀ t u : MonoTy, t.PlainlyNamed → u.PlainlyNamed → t.render = u.render → t = u) ∧
    (∀ σ τ : Scheme Empty, σ.PlainlyNamed → τ.PlainlyNamed → σ.render = τ.render → σ = τ) ∧
    (∀ (Γ : Env Empty) (c c' : Int) (e : Expr) (r : Typed Empty), Γ.Closed → 0 ≤ c →
      Expr.Infers Γ c e r c' → ∀ a, r.Mentions a → IsTypeVarName a) ∧
    (∀ σ ν : Scheme Empty, σ.normalize = .ok ν →
      ∀ a, a ∈ ν.bound ∨ a ∈ ν.body.freeVars → IsTypeVarName a) := by
  refine ⟨?_, ?_, ?_, ?_⟩
  · intro t u ht hu h
    exact Ty.eq_of_render_eq ht hu h
  · intro σ τ hσ hτ h
    exact Scheme.eq_of_render_eq hσ hτ h
  · intro Γ c c' e r hΓ hc h a ha
    exact Expr.isTypeVarName_of_mentions hΓ hc h ha
  · intro σ ν h a ha
    exact Scheme.isTypeVarName_of_normalize h ha

/-- A type with parentheses around a function and around a pair. -/
def bothParentheses : MonoTy :=
  .fn (.fn (.var "a") (.pair .int (.var "t7"))) (.fn (.list (.var "a")) .bool)

/-- A function type with parentheses of both kinds, a normal form and a variable of a run. -/
theorem printed_in_one_way_bothParentheses :
    (∃ u, Ty.function? [.fn (.var "a") (.pair .int (.var "t7")), .list (.var "a"), .bool] =
        some u ∧ u.PlainlyNamed ∧ bothParentheses.PlainlyNamed ∧
      u.render = "(a -> (Int, t7)) -> [a] -> Bool" ∧
      bothParentheses.render = "(a -> (Int, t7)) -> [a] -> Bool" ∧ bothParentheses = u) ∧
    (∃ ν, Scheme.normalize ⟨["t2", "t1"], .fn (.var "t1") (.var "t2")⟩ = .ok ν ∧
      ν.PlainlyNamed ∧ ν.render = "forall a b. a -> b" ∧
      ν = ⟨["a", "b"], .fn (.var "a") (.var "b")⟩ ∧
      ∀ a ∈ ν.bound, IsTypeVarName a) ∧
    (∃ r c', Expr.Infers ∅ 0 (.lam "x" (.var "x")) r c' ∧ Env.Closed ∅ ∧
      r.Mentions "t1" ∧ IsTypeVarName "t1") := by
  obtain ⟨htypes, hschemes, hinferred, hnormal⟩ := printed_in_one_way
  have hletters := (firstLetterNames_letterNames 2).letters
  have ha : IsTypeVarName "a" := (hletters "a" (by decide)).isTypeVarName
  have hb : IsTypeVarName "b" := (hletters "b" (by decide)).isTypeVarName
  have ht7 : IsTypeVarName "t7" := isTypeVarName_typeVarName (Int.natCast_nonneg 7)
  have hparens : bothParentheses.PlainlyNamed :=
    ⟨⟨ha, Or.inl rfl, ht7⟩, ha, Or.inr rfl⟩
  have hplain : Scheme.PlainlyNamed ⟨["a", "b"], .fn (.var "a") (.var "b")⟩ :=
    ⟨by simp [ha, hb], ha, hb⟩
  have hnormalize : Scheme.normalize ⟨["t2", "t1"], .fn (.var "t1") (.var "t2")⟩ =
      .ok (⟨["a", "b"], .fn (.var "a") (.var "b")⟩ : Scheme Empty) := rfl
  refine ⟨⟨bothParentheses, rfl, hparens, hparens, by decide, by decide, ?_⟩,
    ⟨_, hnormalize, hplain, by decide, ?_, ?_⟩, ?_⟩
  · exact htypes _ _ hparens hparens rfl
  · exact hschemes _ _ hplain hplain rfl
  · intro a ha
    exact hnormal _ _ hnormalize a (Or.inl ha)
  · have hrun : Expr.Infers ∅ 0 (.lam "x" (.var "x")) ⟨.fn (.var "t1") (.var "t1"), []⟩ 1 := rfl
    have hmentions : Typed.Mentions ⟨.fn (.var "t1") (.var "t1"), []⟩ "t1" := Or.inl (by decide)
    exact ⟨_, _, hrun, Env.closed_empty, hmentions,
      hinferred ∅ 0 1 _ _ Env.closed_empty (by decide) hrun "t1" hmentions⟩

end LetPoly
