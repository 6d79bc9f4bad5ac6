import LetPoly.Expr.Printer
import LetPoly.Proofs.Reading.Parsing
import Mathlib.Data.List.Forall2

/-!
# Printing and parsing

What is printed can be parsed, and gives back the expression or the program that was
printed.  What is parsed can be printed.

Main results:

- Theorem {lit}`Expr.Printable.written`: the printed text has the tokens of a derivation of
  the expression, whatever may stand after it.
- Theorem {lit}`Phrase.printable`: a derivation from tokens that can be spelled stands for
  an expression that can be printed.
- Theorem {lit}`parse_render_roundTrip`: printing and parsing undo each other.
-/

namespace LetPoly

open Token (Lexes Gap Spells IsName)

/-! ## What can be printed -/

/-- The names of the expression are names of the language, and its integers are short. -/
inductive Expr.Printable : Expr → Prop where
  | var {x : String} (hx : IsName x) : Printable (.var x)
  | app {function argument : Expr} (hfunction : Printable function)
      (hargument : Printable argument) : Printable (.app function argument)
  | lam {x : String} {body : Expr} (hx : IsName x) (hbody : Printable body) :
      Printable (.lam x body)
  | letIn {x : String} {value body : Expr} (hx : IsName x) (hvalue : Printable value)
      (hbody : Printable body) : Printable (.letIn x value body)
  | int {n : Int} (hn : (Nat.toDigits 10 n.natAbs).length ≤ Text.maxDigits) : Printable (.int n)
  | bool (value : Bool) : Printable (.bool value)
  | ifThenElse {test onTrue onFalse : Expr} (htest : Printable test) (htrue : Printable onTrue)
      (hfalse : Printable onFalse) : Printable (.ifThenElse test onTrue onFalse)
  | fix {body : Expr} (hbody : Printable body) : Printable (.fix body)
  | list {elements : List Expr} (helements : ∀ e ∈ elements, Printable e) :
      Printable (.list elements)
  | prim (primitive : Primitive) : Printable (.prim primitive)

/-- The names of the definitions are names of the language, and their values and the body
can be printed. -/
structure Program.Printable (program : Program) : Prop where
  names : ∀ d ∈ program.definitions, IsName d.name
  values : ∀ d ∈ program.definitions, d.value.Printable
  body : program.body.Printable

/-! ## Texts with given tokens -/

/-- The characters have the given tokens before anything that cannot continue a token, and
no token is an integer that is too long. -/
structure Writes (cs : List Char) (tokens : List Token) : Prop where
  lexes : ∀ after more rest, (∀ c ∈ after.head?, Token.continues c = false) →
    Lexes after more rest → Lexes (cs ++ after) (tokens ++ more) rest
  isShort : ∀ t ∈ tokens, t.IsShort

/-- A character that starts a word may continue one. -/
theorem Token.continues_of_isWordStart {c : Char} (h : isWordStart c = true) :
    continues c = true := by
  simp only [isWordStart, Bool.or_eq_true] at h
  rcases h with h | h
  · simp [continues, isWordChar, Char.isAlphanum, h]
  · simp [continues, isWordChar, h]

/-- A character that can continue a token is no white space. -/
theorem Token.isBlank_of_continues {c : Char} (h : continues c = true) :
    Text.isBlank c = false := by
  by_contra hblank
  rw [Bool.not_eq_false] at hblank
  rw [continues_of_isBlank hblank] at h
  cases h

/-- A token does not start with white space or a comment. -/
theorem Token.Spells.head {t : Token} {lexeme : List Char} (h : Spells t lexeme) :
    ∀ c ∈ lexeme.head?, Text.isBlank c = false ∧ c ≠ ';' := by
  intro c hc
  cases h with
  | integer _ hdigits =>
      have hdigit := hdigits c (List.mem_of_mem_head? hc)
      refine ⟨isBlank_of_continues (continues_of_isDigit hdigit), ?_⟩
      rintro rfl
      exact absurd hdigit (by decide)
  | @name x h =>
      have hword := h.word
      match hx : x.toList, hword with
      | first :: rest, ⟨hfirst, _⟩ =>
          rw [hx] at hc
          cases hc
          refine ⟨isBlank_of_continues (continues_of_isWordStart hfirst), ?_⟩
          rintro rfl
          exact absurd hfirst (by decide)
  | prim p => cases p <;> cases hc <;> decide
  | keyword k => cases k <;> cases hc <;> decide
  | _ =>
      cases hc
      decide

/-- There is nothing to skip in front of a token. -/
theorem Token.Spells.gap {t : Token} {lexeme : List Char} (h : Spells t lexeme)
    (after : List Char) : Gap (lexeme ++ after) (lexeme ++ after) := by
  refine .stop fun c hc => h.head c ?_
  rwa [List.head?_append_of_ne_nil _ h.ne_nil] at hc

namespace Writes

variable {cs cs' : List Char} {tokens tokens' : List Token} {c : Char} {t : Token}

/-- Nothing writes no tokens. -/
theorem nil : Writes [] [] where
  lexes _ _ _ _ h := h
  isShort := by simp

/-- A spelling writes its token. -/
theorem of_spells (h : Spells t cs) (hshort : t.IsShort) : Writes cs [t] where
  lexes after _ _ hafter hlexes := .token (h.gap after) (h.longest hafter) hlexes
  isShort := by simpa using hshort

/-- Blanks in front do not matter. -/
theorem blank (hc : Text.isBlank c = true) (h : Writes cs tokens) : Writes (c :: cs) tokens where
  lexes after more rest hafter hlexes := by
    have hskip : Token.skipBlanks false (c :: (cs ++ after)) =
        Token.skipBlanks false (cs ++ after) := by
      simp [Token.skipBlanks, hc]
    rw [List.cons_append, ← Token.Lexes.skipBlanks_left_iff, hskip,
      Token.Lexes.skipBlanks_left_iff]
    exact h.lexes after more rest hafter hlexes
  isShort := h.isShort

/-- Texts may be put one behind the other where no token goes on across the border. -/
theorem append (h : Writes cs tokens) (hc : Token.continues c = false)
    (h' : Writes (c :: cs') tokens') : Writes (cs ++ c :: cs') (tokens ++ tokens') where
  lexes after more rest hafter hlexes := by
    rw [List.append_assoc, List.append_assoc]
    refine h.lexes _ _ _ ?_ (h'.lexes after more rest hafter hlexes)
    simpa using hc
  isShort := List.forall_mem_append.2 ⟨h.isShort, h'.isShort⟩

/-- A token of one character that is part of no longer token. -/
theorem symbol (hscan : ∀ rest, Token.scan? (Token.skipBlanks false (c :: rest)) = some (t, rest))
    (hshort : t.IsShort) (h : Writes cs tokens) : Writes (c :: cs) (t :: tokens) where
  lexes after more rest hafter hlexes :=
    Token.Lexes.cons_iff.2 ⟨cs ++ after, hscan _, h.lexes after more rest hafter hlexes⟩
  isShort := List.forall_mem_cons.2 ⟨hshort, h.isShort⟩

theorem openParen (h : Writes cs tokens) : Writes ('(' :: cs) (.openParen :: tokens) :=
  symbol (fun _ => rfl) trivial h

theorem closeParen (h : Writes cs tokens) : Writes (')' :: cs) (.closeParen :: tokens) :=
  symbol (fun _ => rfl) trivial h

theorem openBracket (h : Writes cs tokens) : Writes ('[' :: cs) (.openBracket :: tokens) :=
  symbol (fun _ => rfl) trivial h

theorem closeBracket (h : Writes cs tokens) : Writes (']' :: cs) (.closeBracket :: tokens) :=
  symbol (fun _ => rfl) trivial h

theorem space (h : Writes cs tokens) : Writes (' ' :: cs) tokens :=
  blank (by decide) h

/-- A keyword is written where no word goes on behind it. -/
theorem keyword (k : Keyword) (h : Writes (c :: cs) tokens) (hc : Token.continues c = false) :
    Writes (k.text.toList ++ c :: cs) (.keyword k :: tokens) :=
  (of_spells (.keyword k) trivial).append hc h

/-- A name is written where no word goes on behind it. -/
theorem name {x : String} (hx : IsName x) (h : Writes (c :: cs) tokens)
    (hc : Token.continues c = false) : Writes (x.toList ++ c :: cs) (.name x :: tokens) :=
  (of_spells (.name hx) trivial).append hc h

/-- Texts with white space between them have the tokens of all of them. -/
theorem intercalate {s : String} (hs : s.toList = [c])
    (hc : Text.isBlank c = true) {texts : List String} {parts : List (List Token)}
    (h : List.Forall₂ (fun text part => Writes text.toList part) texts parts) :
    Writes (s.intercalate texts).toList parts.flatten := by
  induction h with
  | nil => simpa using nil
  | @cons text part texts parts hfirst hrest ih =>
      cases hrest with
      | nil => simpa using hfirst
      | cons _ _ =>
          rw [String.intercalate_cons_cons, String.toList_append, String.toList_append,
            hs, List.append_assoc, List.flatten_cons]
          exact hfirst.append (Token.continues_of_isBlank hc) (ih.blank hc)

/-- All of a text has the tokens. -/
theorem lexes_all {text : String} (h : Writes text.toList tokens) :
    Lexes text.toList tokens [] := by
  have hend : Lexes [] [] [] := .stop (.stop (by simp))
  simpa using h.lexes [] [] [] (by simp) hend

end Writes

/-! ## Printing integers -/

namespace Text

/-- So many digits make no larger number. -/
theorem ofDigitChars_lt {digits : List Char} (h : ∀ c ∈ digits, c.isDigit = true) :
    Nat.ofDigitChars 10 digits 0 < Nat.pow 10 digits.length := by
  induction digits with
  | nil => decide
  | cons c digits ih =>
      rcases List.forall_mem_cons.1 h with ⟨hc, hdigits⟩
      have hle : c.toNat - '0'.toNat ≤ 9 := by
        have hnine := (Token.isDigit_iff.1 hc).2
        have hzero : '0'.toNat = 48 := rfl
        omega
      have hmul := Nat.mul_le_mul_left (Nat.pow 10 digits.length) hle
      have hrest := ih hdigits
      rw [Nat.ofDigitChars_cons, Nat.ofDigitChars_eq_ofDigitChars_zero, Nat.mul_zero, Nat.zero_add,
        List.length_cons]
      change Nat.pow 10 digits.length * (c.toNat - '0'.toNat) + Nat.ofDigitChars 10 digits 0 <
        Nat.pow 10 digits.length * 10
      omega

/-- How large a number with so many digits can be. -/
theorem length_toDigits_le_iff {n limit : Nat} (h : 0 < limit) :
    (Nat.toDigits 10 n).length ≤ limit ↔ n < Nat.pow 10 limit :=
  Nat.length_toDigits_le_iff (by decide) h

/-- The text of an integer spells a sign and digits that stand for it. -/
theorem exists_spells_decimal (n : Int) :
    ∃ negative digits, Phrase.numeral negative digits = n ∧
      digits = Nat.toDigits 10 n.natAbs ∧
      Spells (.integer negative digits) (decimal n).toList := by
  have hdigits : ∀ a, ∀ c ∈ Nat.toDigits 10 a, c.isDigit = true := fun a c hc =>
    Nat.isDigit_of_mem_toDigits (by decide) (by decide) hc
  have hne : ∀ a, Nat.toDigits 10 a ≠ [] := fun a =>
    List.length_pos_iff.1 Nat.length_toDigits_pos
  match n with
  | .ofNat a =>
      refine ⟨false, Nat.toDigits 10 a, ?_, rfl, ?_⟩
      · simp [Phrase.numeral, Nat.ofDigitChars_ten_toDigits]
      · have htext : (decimal (.ofNat a)).toList = Nat.toDigits 10 a := Nat.toList_repr
        rw [htext]
        exact .integer (hne a) (hdigits a)
  | .negSucc a =>
      refine ⟨true, Nat.toDigits 10 (a + 1), ?_, rfl, ?_⟩
      · rw [Phrase.numeral, Nat.ofDigitChars_ten_toDigits]
        rfl
      · have htext : (decimal (.negSucc a)).toList = '-' :: Nat.toDigits 10 (a + 1) := by
          change ("-" ++ (a + 1).repr).toList = _
          rw [String.toList_append, Nat.toList_repr]
          rfl
        rw [htext]
        exact .negative (hne (a + 1)) (hdigits (a + 1))

end Text

/-! ## Printing expressions -/

namespace Phrase

variable {p : Phrase} {ps qs : List Phrase}

theorem exprs_eq_map : exprs ps = ps.map expr := by
  induction ps with
  | nil => rfl
  | cons p ps ih => rw [exprs, ih, List.map_cons]

theorem tokensList_eq_flatMap : tokensList ps = ps.flatMap tokens := by
  induction ps with
  | nil => rfl
  | cons p ps ih => rw [tokensList, ih, List.flatMap_cons]

/-- Derivations one behind the other derive the tokens one behind the other. -/
theorem tokensList_append : tokensList (ps ++ qs) = tokensList ps ++ tokensList qs := by
  simp only [tokensList_eq_flatMap, List.flatMap_append]

end Phrase

/-- Where each member of a list is printed as one of its derivations, so are all of them. -/
theorem exists_mapM_writes {α β : Type} {render : α → Except PrintError String} {value : β → α}
    {tokens : β → List Token} {members : List α}
    (h : ∀ a ∈ members, ∃ text p, render a = .ok text ∧ value p = a ∧
      Writes text.toList (tokens p)) :
    ∃ (texts : List String) (ps : List β), members.mapM render = .ok texts ∧
      ps.map value = members ∧
      List.Forall₂ (fun text part => Writes text.toList part) texts (ps.map tokens) := by
  induction members with
  | nil => exact ⟨[], [], rfl, rfl, .nil⟩
  | cons a members ih =>
      rw [List.forall_mem_cons] at h
      rcases h with ⟨⟨text, p, htext, hvalue, hwrites⟩, hmembers⟩
      rcases ih hmembers with ⟨texts, ps, htexts, hvalues, hwritesAll⟩
      refine ⟨text :: texts, p :: ps, ?_, ?_, .cons hwrites hwritesAll⟩
      · rw [List.mapM_cons, htext, htexts]
        rfl
      · rw [List.map_cons, hvalue, hvalues]

namespace Expr

attribute [local simp] renderAt renderList

/-- The printed text of the expression has the tokens of a derivation of it. -/
def Written (e : Expr) : Prop :=
  ∃ (text : String) (p : Phrase), e.renderAt false = .ok text ∧ p.expr = e ∧
    Writes text.toList p.tokens

/-- The text that is printed for the expression as the function of a larger application has
the tokens of derivations of a function and of arguments. -/
def WrittenBare (e : Expr) : Prop :=
  ∃ (text : String) (p : Phrase) (ps : List Phrase), e.renderAt true = .ok text ∧
    p.expr.apps (Phrase.exprs ps) = e ∧ Writes text.toList (p.tokens ++ Phrase.tokensList ps)

/-- Only applications are printed in another way when they are the function of a larger
one. -/
theorem Written.both {e : Expr} (h : Written e) (hrender : e.renderAt true = e.renderAt false) :
    Written e ∧ WrittenBare e := by
  refine ⟨h, ?_⟩
  rcases h with ⟨text, p, htext, hexpr, hwrites⟩
  refine ⟨text, p, [], hrender.trans htext, hexpr, ?_⟩
  rwa [Phrase.tokensList, List.append_nil]

/-- An expression whose text is one token. -/
theorem written_leaf {e : Expr} {text : String} {p : Phrase} {t : Token}
    (hrender : e.renderAt false = .ok text) (hexpr : p.expr = e) (htokens : p.tokens = [t])
    (hspells : Spells t text.toList) (hshort : t.IsShort) : Written e := by
  refine ⟨text, p, hrender, hexpr, ?_⟩
  rw [htokens]
  exact .of_spells hspells hshort

/-- Integers that are short enough are written with their digits. -/
theorem written_int {n : Int} (hn : (Nat.toDigits 10 n.natAbs).length ≤ Text.maxDigits) :
    Written (.int n) := by
  rcases Text.exists_spells_decimal n with ⟨negative, digits, hnumeral, hdigits, hspells⟩
  refine written_leaf (p := .integer negative digits) ?_ ?_ rfl hspells ?_
  · have hwrite : Text.writeInt n = .ok (Text.decimal n) :=
      if_pos ((Text.length_toDigits_le_iff (by decide)).1 hn)
    rw [renderAt, hwrite]
    rfl
  · rw [Phrase.expr, hnumeral]
  · rw [hdigits]
    exact hn

/-- Truth values are written as their keywords. -/
theorem written_bool (value : Bool) : Written (.bool value) := by
  cases value with
  | true => exact written_leaf rfl (p := .bool true) rfl rfl (.keyword .trueWord) trivial
  | false => exact written_leaf rfl (p := .bool false) rfl rfl (.keyword .falseWord) trivial

/-- A function is written if its body is. -/
theorem written_lam {x : String} {body : Expr} (hx : IsName x) (h : Written body) :
    Written (.lam x body) := by
  rcases h with ⟨text, p, htext, rfl, hwrites⟩
  refine ⟨_, .lam x p, by simp [htext]; rfl, rfl, ?_⟩
  have hchars : ("(lam [" ++ x ++ "] " ++ text ++ ")").toList =
      '(' :: (Keyword.lam.text.toList ++
        ' ' :: '[' :: (x.toList ++ ']' :: ' ' :: (text.toList ++ [')']))) := by
    simp [Keyword.text]
  rw [hchars]
  have hbody := hwrites.append rfl (Writes.closeParen .nil)
  have hparameter := hbody.space.closeBracket.name hx rfl
  exact (hparameter.openBracket.space.keyword .lam rfl).openParen

/-- A local definition is written if its value and its body are. -/
theorem written_letIn {x : String} {value body : Expr} (hx : IsName x) (hvalue : Written value)
    (hbody : Written body) : Written (.letIn x value body) := by
  rcases hvalue with ⟨text, p, htext, rfl, hwrites⟩
  rcases hbody with ⟨text', q, htext', rfl, hwrites'⟩
  refine ⟨_, .letIn x p q, by simp [htext, htext']; rfl, rfl, ?_⟩
  have hchars : ("(let ([" ++ x ++ " " ++ text ++ "]) " ++ text' ++ ")").toList =
      '(' :: (Keyword.letWord.text.toList ++ ' ' :: '(' :: '[' :: (x.toList ++
        ' ' :: (text.toList ++ ']' :: ')' :: ' ' :: (text'.toList ++ [')'])))) := by
    simp [Keyword.text]
  rw [hchars]
  have hbody := hwrites'.append rfl (Writes.closeParen .nil)
  have hvalue := hwrites.append rfl hbody.space.closeParen.closeBracket
  have hbinding := hvalue.space.name hx rfl
  exact (hbinding.openBracket.openParen.space.keyword .letWord rfl).openParen

/-- A choice is written if its three parts are. -/
theorem written_ifThenElse {test onTrue onFalse : Expr} (htest : Written test)
    (htrue : Written onTrue) (hfalse : Written onFalse) :
    Written (.ifThenElse test onTrue onFalse) := by
  rcases htest with ⟨text₁, p₁, htext₁, rfl, hwrites₁⟩
  rcases htrue with ⟨text₂, p₂, htext₂, rfl, hwrites₂⟩
  rcases hfalse with ⟨text₃, p₃, htext₃, rfl, hwrites₃⟩
  refine ⟨_, .ifThenElse p₁ p₂ p₃, by simp [htext₁, htext₂, htext₃]; rfl, rfl, ?_⟩
  have hchars : ("(if " ++ text₁ ++ " " ++ text₂ ++ " " ++ text₃ ++ ")").toList =
      '(' :: (Keyword.ifWord.text.toList ++ ' ' :: (text₁.toList ++ ' ' :: (text₂.toList ++
        ' ' :: (text₃.toList ++ [')'])))) := by
    simp [Keyword.text]
  rw [hchars]
  have hfalse := hwrites₃.append rfl (Writes.closeParen .nil)
  have htrue := hwrites₂.append rfl hfalse.space
  have htest := hwrites₁.append rfl htrue.space
  exact (htest.space.keyword .ifWord rfl).openParen

/-- A fixed point is written if its body is. -/
theorem written_fix {body : Expr} (h : Written body) : Written (.fix body) := by
  rcases h with ⟨text, p, htext, rfl, hwrites⟩
  refine ⟨_, .fix p, by simp [htext]; rfl, rfl, ?_⟩
  have hchars : ("(fix " ++ text ++ ")").toList =
      '(' :: (Keyword.fix.text.toList ++ ' ' :: (text.toList ++ [')'])) := by
    simp [Keyword.text]
  rw [hchars]
  have hbody := hwrites.append rfl (Writes.closeParen .nil)
  exact (hbody.space.keyword .fix rfl).openParen

/-- An application is printed as its function, without parentheses of its own, and its
argument. -/
theorem exists_written_app {function argument : Expr} (hfunction : WrittenBare function)
    (hargument : Written argument) :
    ∃ (text : String) (p first : Phrase) (more : List Phrase),
      (app function argument).renderAt true = .ok text ∧
      (app function argument).renderAt false = .ok ("(" ++ text ++ ")") ∧
      p.expr.apps (Phrase.exprs (first :: more)) = .app function argument ∧
      Writes text.toList (p.tokens ++ Phrase.tokensList (first :: more)) := by
  rcases hfunction with ⟨text, p, ps, htext, rfl, hwrites⟩
  rcases hargument with ⟨text', q, htext', rfl, hwrites'⟩
  rcases List.exists_cons_of_ne_nil (List.concat_ne_nil q ps) with ⟨first, more, hcons⟩
  refine ⟨text ++ " " ++ text', p, first, more, by simp [htext, htext']; rfl,
    by simp [htext, htext']; rfl, ?_, ?_⟩
  · rw [← hcons, Phrase.exprs_eq_map, Phrase.exprs_eq_map, List.map_append, apps, apps,
      List.foldl_append]
    rfl
  · have hchars : (text ++ " " ++ text').toList = text.toList ++ ' ' :: text'.toList := by
      simp
    have htokens : p.tokens ++ Phrase.tokensList (ps ++ [q]) =
        (p.tokens ++ Phrase.tokensList ps) ++ q.tokens := by
      simp [Phrase.tokensList_append, Phrase.tokensList]
    rw [← hcons, hchars, htokens]
    exact hwrites.append rfl hwrites'.space

/-- An application is written with parentheses around all its arguments, and without them where more
arguments follow. -/
theorem written_app {function argument : Expr} (hfunction : WrittenBare function)
    (hargument : Written argument) :
    Written (.app function argument) ∧ WrittenBare (.app function argument) := by
  rcases exists_written_app hfunction hargument with
    ⟨text, p, first, more, hbare, hrender, hexpr, hwrites⟩
  refine ⟨⟨_, .app p first more, hrender, hexpr, ?_⟩, text, p, first :: more, hbare, hexpr, hwrites⟩
  have hchars : ("(" ++ text ++ ")").toList = '(' :: (text.toList ++ [')']) := by
    simp
  have htokens : (Phrase.app p first more).tokens =
      .openParen :: (p.tokens ++ Phrase.tokensList (first :: more) ++ [.closeParen]) := by
    simp [Phrase.tokens, Phrase.tokensList]
  rw [hchars, htokens]
  exact (hwrites.append rfl (Writes.closeParen .nil)).openParen

theorem renderList_eq_mapM (es : List Expr) : renderList es = es.mapM (renderAt false) := by
  induction es with
  | nil => rfl
  | cons e es ih => rw [renderList, ih, List.mapM_cons]

/-- A list is written if its elements are, with a space between them. -/
theorem written_list {elements : List Expr} (h : ∀ e ∈ elements, Written e) :
    Written (.list elements) := by
  rcases exists_mapM_writes h with ⟨texts, ps, htexts, hexprs, hwrites⟩
  refine ⟨_, .list ps, by rw [renderAt, renderList_eq_mapM, htexts]; rfl, ?_, ?_⟩
  · rw [Phrase.expr, Phrase.exprs_eq_map, hexprs]
  · have hchars : ("[" ++ " ".intercalate texts ++ "]").toList =
        '[' :: ((" ".intercalate texts).toList ++ [']']) := by
      simp only [String.toList_append]
      rfl
    rw [hchars, Phrase.tokens, Phrase.tokensList_eq_flatMap, List.flatMap_def]
    have helements := Writes.intercalate (s := " ") rfl (by decide) hwrites
    exact (helements.append rfl (Writes.closeBracket .nil)).openBracket

/-- What can be printed is printed as one of its derivations. -/
theorem Printable.written {e : Expr} (h : e.Printable) : Written e ∧ WrittenBare e := by
  induction h with
  | app _ _ ihfunction ihargument => exact written_app ihfunction.2 ihargument.1
  | @var x hx => exact (written_leaf rfl (p := .name x) rfl rfl (.name hx) trivial).both rfl
  | prim p => exact (written_leaf rfl (p := .prim p) rfl rfl (.prim p) trivial).both rfl
  | int hn => exact (written_int hn).both rfl
  | bool value => exact (written_bool value).both rfl
  | lam hx _ ih => exact (written_lam hx ih.1).both rfl
  | letIn hx _ _ ihvalue ihbody => exact (written_letIn hx ihvalue.1 ihbody.1).both rfl
  | ifThenElse _ _ _ ihtest ihtrue ihfalse =>
      exact (written_ifThenElse ihtest.1 ihtrue.1 ihfalse.1).both rfl
  | fix _ ih => exact (written_fix ih.1).both rfl
  | list _ ih => exact (written_list fun e he => (ih e he).1).both rfl

end Expr

/-! ## Printing programs -/

/-- A definition with a name is written in one line. -/
theorem Definition.written {d : Definition} (hname : IsName d.name)
    (hvalue : d.value.Printable) :
    ∃ (line : String) (p : DefinitionPhrase), d.render = .ok line ∧ p.definition = d ∧
      Writes line.toList p.tokens := by
  rcases hvalue.written.1 with ⟨text, p, htext, hexpr, hwrites⟩
  refine ⟨_, ⟨d.name, p⟩, by rw [render, Expr.render, htext]; rfl, ?_, ?_⟩
  · rw [DefinitionPhrase.definition, hexpr]
  · have hchars : ("(def " ++ d.name ++ " " ++ text ++ ")").toList =
        '(' :: (Keyword.defWord.text.toList ++
          ' ' :: (d.name.toList ++ ' ' :: (text.toList ++ [')']))) := by
      simp [Keyword.text]
    rw [hchars]
    have hvalue := hwrites.append rfl (Writes.closeParen .nil)
    exact ((hvalue.space.name hname rfl).space.keyword .defWord rfl).openParen

/-- A program is written definition by definition, with its body in the last line. -/
theorem Program.Printable.written {program : Program} (h : program.Printable) :
    ∃ (text : String) (p : ProgramPhrase), program.render = .ok text ∧ p.program = program ∧
      Writes text.toList p.tokens := by
  rcases exists_mapM_writes fun d hd => Definition.written (h.names d hd) (h.values d hd) with
    ⟨lines, ds, hlines, hdefinitions, hwrites⟩
  rcases h.body.written.1 with ⟨text, p, htext, hexpr, hbody⟩
  refine ⟨_, ⟨ds, p⟩, by rw [render, hlines, Expr.render, htext]; rfl, ?_, ?_⟩
  · rw [ProgramPhrase.program, hdefinitions, hexpr]
  · have hall := List.rel_append hwrites (List.Forall₂.cons hbody .nil)
    have hwritesAll := Writes.intercalate (s := "\n") rfl (by decide) hall
    rwa [List.flatten_append, ← List.flatMap_def, List.flatten_singleton] at hwritesAll

/-! ## What is parsed can be printed -/

/-- A token for a name that can be spelled holds a name. -/
theorem Token.IsSpelled.isName {x : String} (h : (Token.name x).IsSpelled) : IsName x := by
  rcases h with ⟨lexeme, hspells⟩
  cases hspells with
  | name hx => exact hx

/-- A token for an integer that can be spelled holds digits. -/
theorem Token.IsSpelled.isDigit {negative : Bool} {digits : List Char}
    (h : (Token.integer negative digits).IsSpelled) : ∀ c ∈ digits, c.isDigit = true := by
  rcases h with ⟨lexeme, hspells⟩
  cases hspells with
  | integer _ hdigits => exact hdigits
  | negative _ hdigits => exact hdigits

/-- Applications to printable arguments are printable. -/
theorem Expr.Printable.apps {function : Expr} {arguments : List Expr}
    (hfunction : function.Printable) (harguments : ∀ e ∈ arguments, e.Printable) :
    (function.apps arguments).Printable := by
  induction arguments generalizing function with
  | nil => exact hfunction
  | cons argument arguments ih =>
      rw [List.forall_mem_cons] at harguments
      exact ih (hfunction.app harguments.1) harguments.2

namespace Phrase

/-- The sign of a numeral does not count for its size. -/
theorem natAbs_numeral (negative : Bool) (digits : List Char) :
    (numeral negative digits).natAbs = Nat.ofDigitChars 10 digits 0 := by
  cases negative <;> simp [numeral]

/-- An integer has no more digits than the token that it is read from. -/
theorem length_toDigits_numeral_le {negative : Bool} {digits : List Char} {limit : Nat}
    (hdigits : ∀ c ∈ digits, c.isDigit = true) (hlength : digits.length ≤ limit)
    (hlimit : 0 < limit) :
    (Nat.toDigits 10 (numeral negative digits).natAbs).length ≤ limit := by
  rw [Text.length_toDigits_le_iff hlimit, natAbs_numeral]
  calc Nat.ofDigitChars 10 digits 0
      < Nat.pow 10 digits.length := Text.ofDigitChars_lt hdigits
    _ ≤ Nat.pow 10 limit := Nat.pow_le_pow_right (by decide) hlength

/-- A derivation from short tokens stands for what can be printed. -/
theorem printable (p : Phrase) (h : ∀ t ∈ p.tokens, t.IsSpelled ∧ t.IsShort) :
    p.expr.Printable := by
  induction p with
  | integer negative digits =>
      rw [tokens, List.forall_mem_singleton] at h
      exact .int (length_toDigits_numeral_le h.1.isDigit h.2 (by decide))
  | bool value => exact .bool value
  | prim primitive => exact .prim primitive
  | name x =>
      rw [tokens, List.forall_mem_singleton] at h
      exact .var h.1.isName
  | list elements ih =>
      simp only [tokens, tokensList_eq_flatMap, List.forall_mem_cons, List.forall_mem_append,
        List.forall_mem_flatMap] at h
      rw [expr, exprs_eq_map]
      refine .list (List.forall_mem_map.2 fun p hp => ih p hp (h.2.1 p hp))
  | lam x body ih =>
      simp only [tokens, List.forall_mem_cons, List.forall_mem_append] at h
      rcases h with ⟨-, -, -, hx, -, hbody, -⟩
      exact .lam hx.1.isName (ih hbody)
  | letIn x value body ihvalue ihbody =>
      simp only [tokens, List.forall_mem_cons, List.forall_mem_append] at h
      rcases h with ⟨-, -, -, -, hx, hvalue, -, -, hbody, -⟩
      exact .letIn hx.1.isName (ihvalue hvalue) (ihbody hbody)
  | ifThenElse test onTrue onFalse ihtest ihtrue ihfalse =>
      simp only [tokens, List.forall_mem_cons, List.forall_mem_append] at h
      rcases h with ⟨-, -, htest, htrue, hfalse, -⟩
      exact .ifThenElse (ihtest htest) (ihtrue htrue) (ihfalse hfalse)
  | fix body ih =>
      simp only [tokens, List.forall_mem_cons, List.forall_mem_append] at h
      rcases h with ⟨-, -, hbody, -⟩
      exact .fix (ih hbody)
  | app function first more ihfunction ihfirst ihmore =>
      simp only [tokens, tokensList_eq_flatMap, List.forall_mem_cons, List.forall_mem_append,
        List.forall_mem_flatMap] at h
      rcases h with ⟨-, hfunction, hfirst, hmore, -⟩
      rw [expr, exprs_eq_map]
      refine .apps (ihfunction hfunction) (List.forall_mem_cons.2 ⟨ihfirst hfirst, ?_⟩)
      exact List.forall_mem_map.2 fun p hp => ihmore p hp (hmore p hp)

end Phrase

/-- What is derived from tokens of a text can be printed. -/
theorem ProgramPhrase.printable (p : ProgramPhrase)
    (h : ∀ t ∈ p.tokens, t.IsSpelled ∧ t.IsShort) : p.program.Printable := by
  simp only [tokens, DefinitionPhrase.tokens, List.forall_mem_cons, List.forall_mem_append,
    List.forall_mem_flatMap] at h
  rcases h with ⟨hdefinitions, hbody⟩
  refine ⟨List.forall_mem_map.2 fun d hd => ?_, List.forall_mem_map.2 fun d hd => ?_,
    p.body.printable hbody⟩
  · rcases hdefinitions d hd with ⟨-, -, hname, -⟩
    exact hname.1.isName
  · rcases hdefinitions d hd with ⟨-, -, -, hvalue, -⟩
    exact d.value.printable hvalue

/-! ## Round trips -/

/-- What is read as an expression. -/
theorem Expr.parse_eq_ok_iff {text : String} {e : Expr} :
    Expr.parse text = .ok e ↔ ∃ tokens, Lexes text.toList tokens [] ∧
      (∀ t ∈ tokens, t.IsShort) ∧ Language.expressions.Word tokens e :=
  Parser.parseText_eq_ok_iff_shortWord Parser.exact_expression Language.prefixFree_expressions

/-- What is read as a program. -/
theorem Program.parse_eq_ok_iff {text : String} {program : Program} :
    Program.parse text = .ok program ↔ ∃ tokens, Lexes text.toList tokens [] ∧
      (∀ t ∈ tokens, t.IsShort) ∧ Language.programs.Word tokens program :=
  Parser.parseText_eq_ok_iff_shortWord Parser.exact_programs Language.prefixFree_programs

/-- A printable expression is read back from its text. -/
theorem Expr.Printable.parse_render {e : Expr} (h : e.Printable) :
    ∃ text, e.render = .ok text ∧ Expr.parse text = .ok e := by
  rcases h.written.1 with ⟨text, p, htext, hexpr, hwrites⟩
  exact ⟨text, htext,
    parse_eq_ok_iff.2 ⟨p.tokens, hwrites.lexes_all, hwrites.isShort, p, rfl, hexpr⟩⟩

/-- A printable program is read back from its text. -/
theorem Program.Printable.parse_render {program : Program} (h : program.Printable) :
    ∃ text, program.render = .ok text ∧ Program.parse text = .ok program := by
  rcases h.written with ⟨text, p, htext, hprogram, hwrites⟩
  exact ⟨text, htext,
    parse_eq_ok_iff.2 ⟨p.tokens, hwrites.lexes_all, hwrites.isShort, p, rfl, hprogram⟩⟩

/-- An expression that was read can be printed. -/
theorem Expr.printable_of_parse {text : String} {e : Expr} (h : Expr.parse text = .ok e) :
    e.Printable := by
  rcases parse_eq_ok_iff.1 h with ⟨_, hlexes, hshort, p, rfl, rfl⟩
  exact p.printable fun t ht => ⟨hlexes.isSpelled t ht, hshort t ht⟩

/-- A program that was read can be printed. -/
theorem Program.printable_of_parse {text : String} {program : Program}
    (h : Program.parse text = .ok program) : program.Printable := by
  rcases parse_eq_ok_iff.1 h with ⟨_, hlexes, hshort, p, rfl, rfl⟩
  exact p.printable fun t ht => ⟨hlexes.isSpelled t ht, hshort t ht⟩

/-- Parsing undoes printing: whatever has names of the language and short integers can be
printed, and its text is parsed to it.  All that is parsed is of that kind, so that it is
parsed again from its own printed text. -/
theorem parse_render_roundTrip :
    (∀ e : Expr, e.Printable → ∃ text, e.render = .ok text ∧ Expr.parse text = .ok e) ∧
    (∀ program : Program, program.Printable →
      ∃ text, program.render = .ok text ∧ Program.parse text = .ok program) ∧
    (∀ text e, Expr.parse text = .ok e →
      e.Printable ∧ ∃ text', e.render = .ok text' ∧ Expr.parse text' = .ok e) ∧
    (∀ text program, Program.parse text = .ok program →
      program.Printable ∧
        ∃ text', program.render = .ok text' ∧ Program.parse text' = .ok program) := by
  refine ⟨fun _ h => h.parse_render, fun _ h => h.parse_render, fun text e h => ?_,
    fun text program h => ?_⟩
  · have hprintable := Expr.printable_of_parse h
    exact ⟨hprintable, hprintable.parse_render⟩
  · have hprintable := Program.printable_of_parse h
    exact ⟨hprintable, hprintable.parse_render⟩

/-- A program with a name that starts as a keyword does, a sign that is an operator and one
that is part of an integer. -/
def signedChoice : Program where
  definitions :=
    [{ name := "iff", value := .lam "x_1" (.ifThenElse (.var "x_1") (.int (-1)) (.int 0)) }]
  body := .app (.app (.var "iff") (.list [.bool true])) (.app (.prim .sub) (.prim .nil))

theorem printable_signedChoice : signedChoice.Printable := by
  have hiff : IsName "iff" := by decide
  have hx : IsName "x_1" := by decide
  refine ⟨List.forall_mem_singleton.2 hiff, List.forall_mem_singleton.2 (.lam hx ?_), ?_⟩
  · exact .ifThenElse (.var hx) (.int (by decide)) (.int (by decide))
  · refine .app (.app (.var hiff) (.list ?_)) (.app (.prim .sub) (.prim .nil))
    exact List.forall_mem_singleton.2 (.bool true)

/-- A name that starts like a keyword, a negative number and a minus sign as an operator are read
back. -/
theorem parse_render_roundTrip_signedChoice :
    signedChoice.Printable ∧
      signedChoice.render = .ok "(def iff (lam [x_1] (if x_1 -1 0)))\n(iff [true] (- nil))" ∧
      Program.parse "(def iff (lam [x_1] (if x_1 -1 0)))\n(iff [true] (- nil))" =
        .ok signedChoice ∧
      Expr.parse "(iff [true] (- nil))" = .ok signedChoice.body := by
  have hrender : signedChoice.render =
      .ok "(def iff (lam [x_1] (if x_1 -1 0)))\n(iff [true] (- nil))" := by decide +kernel
  have hbody : signedChoice.body.render = .ok "(iff [true] (- nil))" := rfl
  rcases parse_render_roundTrip.2.1 _ printable_signedChoice with ⟨text, htext, hparse⟩
  rcases parse_render_roundTrip.1 _ printable_signedChoice.body with ⟨text', htext', hparse'⟩
  cases hrender.symm.trans htext
  cases hbody.symm.trans htext'
  refine ⟨(parse_render_roundTrip.2.2.2 _ _ hparse).1, hrender, hparse, hparse'⟩

end LetPoly
